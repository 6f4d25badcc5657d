import RabbitmqLite.Storage.Sqlite.Agreement

/-! # Delivery order of the two drivers

The SQLite driver delivers by availability, the in-memory driver in append
order, so a message that was retried or released keeps its place only in the
latter. Both deliver the same list exactly if the first claimable messages in
append order are also the first ones by availability.
-/

namespace RabbitmqLite.Storage.Sqlite
open Broker Collections Atomic Sql
open Memory (Messages claimableIn handedOut storeAfter matches_after)

variable {json : JsonMaps}

/-- The ids of the messages a claim replied with. -/
def claimedIds (reply : Except Error (List Message)) : Except Error (List String) :=
  reply.map (List.map Message.id)

/-- The claimable messages of a queue after a run, in append order. -/
def appendedLine (cs : List MessageCall) (req : ClaimRequest) : List String :=
  (appendOrderOf cs req.queue).filter (claimableIn (storeAfter cs).messages req.now)

/-- The first `Limit` claimable messages by availability and then append order. -/
def firstAvailable (cs : List MessageCall) (req : ClaimRequest) : List String :=
  ((appendedLine cs req).insertionSort (availableBefore (storeAfter cs).messages)).take
    req.limit.toNat

/-- Among the claimable messages in append order, the first `Limit` ones became available
in that order, and none of the others before one of them. -/
def Aligned (cs : List MessageCall) (req : ClaimRequest) : Prop :=
  PrefixSorted (availableBefore (storeAfter cs).messages) req.limit.toNat (appendedLine cs req)

instance (cs : List MessageCall) (req : ClaimRequest) : Decidable (Aligned cs req) := by
  unfold Aligned
  infer_instance

/-- The table lists the claimable messages of a queue in append order. -/
theorem Corresponds.inLine_eq {cs : List MessageCall}
    (h : Corresponds json (storeAfter cs) (dbAfter json cs)) (hl : Memory.LegalRun cs)
    (req : ClaimRequest) :
    inLine (storeAfter cs).messages req.now req.queue ((dbAfter json cs).messages.map Row.id) =
      appendedLine cs req := by
  have hm := matches_after hl
  rw [← h.filter_claimableIn hm.indexed, hm.similar.filter_claimable, hm.index, appendedLine]

/-- The in-memory driver delivers in append order. -/
theorem memory_claimedIds {cs : List MessageCall} (hl : Memory.LegalRun cs) {req : ClaimRequest}
    (hlim : 0 ≤ req.limit) :
    claimedIds ((storeAfter cs).claim req).1 =
      .ok ((appendedLine cs req).take req.limit.toNat) := by
  have hm := matches_after hl
  obtain ⟨t, messages, hc, -, hclaim⟩ := hm.indexed.claim hm.opened hlim
  have hline : (t.order req.queue).filter (claimableIn (storeAfter cs).messages req.now) =
      appendedLine cs req := by
    have ht := (hc.similar hm.similar).filter_claimable req.queue req.now
    rw [hc.messages_eq] at ht
    rw [ht, hm.index, appendedLine]
  rw [hclaim, hline, claimedIds, Except.map, Memory.map_id_handedOut hm.indexed.keyed]
  intro id hid
  exact (List.mem_filter.mp (List.mem_of_mem_take hid)).2

/-- Both drivers pick the same messages at an aligned claim. -/
theorem Corresponds.picks_of_aligned {cs : List MessageCall}
    (h : Corresponds json (storeAfter cs) (dbAfter json cs)) (hl : Memory.LegalRun cs)
    {req : ClaimRequest} (ha : Aligned cs req) :
    (inLine (storeAfter cs).messages req.now req.queue
        ((dbAfter json cs).messages.map Row.id)).take req.limit.toNat =
      picks (storeAfter cs).messages req ((dbAfter json cs).messages.map Row.id) := by
  rw [picks, h.inLine_eq hl]
  exact ((take_insertionSort_eq_take_iff _ _).mpr ha).symm

/-- The bounds of a run, and alignment at each of its claims. -/
structure AlignedRun (cs : List MessageCall) : Prop where
  run : DriverRun cs
  leases : SetLeases cs
  declared : DeclaredPurges cs
  limit : ∀ req, .claim req ∈ cs → 1 ≤ req.limit
  unlimited : ∀ now n, .expiredLeases now n ∈ cs → n = 0
  aligned : ∀ ds req fs, cs = ds ++ .claim req :: fs → Aligned ds req

theorem AlignedRun.legal {cs : List MessageCall} (h : AlignedRun cs) : Memory.LegalRun cs :=
  ⟨h.run.nodup, fun req hm => le_trans zero_le_one (h.limit req hm)⟩

theorem AlignedRun.paired {cs : List MessageCall} (h : AlignedRun cs) : PairedRun json cs where
  run := h.run
  leases := h.leases
  declared := h.declared
  limit := h.legal.limit
  unlimited := h.unlimited
  picks := by
    rintro ds req fs rfl hc
    rw [hc.picks_of_aligned h.legal.of_append (h.aligned ds req fs rfl)]

/-- The lists the two drivers deliver, and when they are the same. -/
structure DeliveryOrder (json : JsonMaps) (cs : List MessageCall) (req : ClaimRequest) : Prop where
  memory : claimedIds ((storeAfter cs).claim req).1 =
    .ok ((appendedLine cs req).take req.limit.toNat)
  sqlite : claimedIds ((dbAfter json cs).claim json req).1 = .ok (firstAvailable cs req)
  same : claimedIds ((storeAfter cs).claim req).1 =
    claimedIds ((dbAfter json cs).claim json req).1 ↔ Aligned cs req

/-- After every run of aligned claims, the drivers deliver the same list in answer to a
request if and only if it is aligned too. -/
theorem delivery_order (json : JsonMaps) (cs : List MessageCall) (h : AlignedRun cs)
    (req : ClaimRequest) (hlim : 1 ≤ req.limit) (hn : InYears req.now)
    (hl : InYears (req.now + req.lease)) (hz : req.now + req.lease ≠ zeroTime) :
    DeliveryOrder json cs req := by
  have hc : Corresponds json (storeAfter cs) (dbAfter json cs) := h.paired.corresponds
  have hm := matches_after h.legal
  have hkeyed := fun id entry => hm.indexed.keyed id entry
  have hmemory : claimedIds ((storeAfter cs).claim req).1 =
      .ok ((appendedLine cs req).take req.limit.toNat) :=
    memory_claimedIds h.legal (le_trans zero_le_one hlim)
  have hsqlite : claimedIds ((dbAfter json cs).claim json req).1 = .ok (firstAvailable cs req) := by
    obtain ⟨rows', hsql, -⟩ := hc.sqlite_claim hn hl hz
    rw [hsql, claimedIds, Except.map, Memory.map_id_handedOut hkeyed picks_claimable, picks,
      hc.inLine_eq h.legal, firstAvailable]
  refine ⟨hmemory, hsqlite, ?_⟩
  rw [hmemory, hsqlite, Except.ok.injEq, firstAvailable, eq_comm]
  exact take_insertionSort_eq_take_iff _ _

/-- The first message is released at one instant, the second available from another on. -/
def releasedFirst (release available : Time) : List MessageCall :=
  [.append [Memory.arrival "a" "orders" 1], .claim ⟨"orders", "c", 1, 30, 2⟩,
    .release "a" release, .append [Memory.arrival "b" "orders" available]]

/-- The only claim of the run finds one message. -/
theorem releasedFirst_aligned (release available : Time) (ds : List MessageCall)
    (req : ClaimRequest) (fs : List MessageCall)
    (h : releasedFirst release available = ds ++ .claim req :: fs) : Aligned ds req := by
  rcases ds with _ | ⟨c1, _ | ⟨c2, _ | ⟨c3, _ | ⟨c4, ds⟩⟩⟩⟩ <;> simp [releasedFirst] at h
  obtain ⟨rfl, rfl, -⟩ := h
  decide +kernel

theorem delivery_order_releasedFirst :
    AlignedRun (releasedFirst 3 5) ∧
      DeliveryOrder tally (releasedFirst 3 5) ⟨"orders", "d", 1, 30, 20⟩ := by
  have h : AlignedRun (releasedFirst 3 5) :=
    { run := ⟨by decide, by decide, by decide⟩
      leases := by simp [SetLeases, releasedFirst, zeroTime]
      declared := by simp [DeclaredPurges, releasedFirst]
      limit := by simp [releasedFirst]
      unlimited := by simp [releasedFirst]
      aligned := releasedFirst_aligned 3 5 }
  exact ⟨h, delivery_order tally _ h _ (by decide) (by decide) (by decide) (by decide)⟩

/-- A message released at 10 is delivered before one available since 5 by the in-memory
driver, and after it by the SQLite driver. -/
theorem delivery_order_differs :
    claimedIds ((storeAfter (releasedFirst 10 5)).claim ⟨"orders", "d", 1, 30, 20⟩).1 =
        .ok ["a"] ∧
      claimedIds ((dbAfter tally (releasedFirst 10 5)).claim tally ⟨"orders", "d", 1, 30, 20⟩).1 =
        .ok ["b"] := by
  constructor <;> decide +kernel

end RabbitmqLite.Storage.Sqlite
