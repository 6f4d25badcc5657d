import RabbitmqLite.Storage.Sqlite.Agreement
import RabbitmqLite.Storage.Sqlite.Archive
import RabbitmqLite.Storage.Sqlite.Comparisons

/-! # Listings of dead letters in both drivers

The in-memory driver lists the letters by insertion, the SQLite driver by time
and id. Both cut the same letters into pages, and the pages are the same where
the letters were inserted in the order of their times.
-/

namespace RabbitmqLite.Storage.Sqlite
open Collections Sql Atomic
open Memory (Archive Holds archiveAfter)

variable {json : JsonMaps}

/-! ## By time and by insertion -/

/-- The latest first, and of two letters of one instant the one with the greater id. -/
def newerFirst (d e : DeadLetter) : Prop :=
  e.deadLetteredAt < d.deadLetteredAt ∨ d.deadLetteredAt = e.deadLetteredAt ∧ e.id ≤ d.id

instance : DecidableRel newerFirst := fun _ _ => inferInstanceAs (Decidable (_ ∨ _))

instance : Std.Total newerFirst where
  total d e := by
    rcases lt_trichotomy d.deadLetteredAt e.deadLetteredAt with h | h | h
    · exact Or.inr (Or.inl h)
    · rcases le_total d.id e.id with hid | hid
      · exact Or.inr (Or.inr ⟨h.symm, hid⟩)
      · exact Or.inl (Or.inr ⟨h, hid⟩)
    · exact Or.inl (Or.inl h)

instance : IsTrans DeadLetter newerFirst where
  trans d e f := by
    rintro (h | ⟨h, hid⟩) (h' | ⟨h', hid'⟩)
    · exact Or.inl (h'.trans h)
    · exact Or.inl (h' ▸ h)
    · exact Or.inl (h ▸ h')
    · exact Or.inr ⟨h.trans h', hid'.trans hid⟩

theorem newerFirst_antisymm {d e : DeadLetter} (h : newerFirst d e) (h' : newerFirst e d) :
    d.id = e.id := by
  rcases h with h | ⟨heq, hid⟩
  · rcases h' with h' | ⟨heq', -⟩
    · exact absurd h' h.asymm
    · exact absurd heq' h.ne
  · rcases h' with h' | ⟨-, hid'⟩
    · exact absurd heq.symm h'.ne'
    · exact le_antisymm hid' hid

/-- The letters of a queue by time. -/
def byTime (a : Archive) (queue : String) : List DeadLetter :=
  (a.letters.filter (Memory.inQueue queue)).insertionSort newerFirst

theorem byTime_perm (a : Archive) (queue : String) : (byTime a queue).Perm (a.listing queue) := by
  rw [Archive.listing, List.filter_reverse]
  exact (List.perm_insertionSort _ _).trans (List.reverse_perm _).symm

theorem byTime_pairwise (a : Archive) (queue : String) : (byTime a queue).Pairwise newerFirst :=
  List.pairwise_insertionSort _ _

/-- Letters are listed by insertion as they are listed by time exactly if they were inserted in
the order of time. -/
theorem byTime_eq_listing {a : Archive} (hn : (a.letters.map DeadLetter.id).Nodup)
    (queue : String) :
    byTime a queue = a.listing queue ↔ (a.listing queue).Pairwise newerFirst := by
  refine ⟨fun h => h ▸ byTime_pairwise a queue, fun h => ?_⟩
  refine (byTime_perm a queue).eq_of_pairwise (fun d e hd he hde hed => ?_)
    (byTime_pairwise a queue) h
  refine List.inj_on_of_nodup_map hn ?_ ?_ (newerFirst_antisymm hde hed)
  · exact List.mem_reverse.mp (List.mem_of_mem_filter ((byTime_perm a queue).subset hd))
  · exact List.mem_reverse.mp (List.mem_of_mem_filter he)

theorem listedFirst_letterRow {d e : DeadLetter} (hd : RegularLetter d) (he : RegularLetter e) :
    newerFirst d e ↔ listedFirst (letterRow json d) (letterRow json e) := by
  rw [listedFirst]
  simp only [letterRow]
  rw [formatTime_lt_formatTime he.deadLettered hd.deadLettered,
    formatTime_inj hd.deadLettered he.deadLettered]
  rfl

theorem Files.listed {db : Database} {a : Archive} (h : Files json db a) (queue : String) :
    orderBy listedFirst (db.deadLetters.filter (inQueue queue)) =
      (byTime a queue).map (letterRow json) := by
  have hfilter : db.deadLetters.filter (inQueue queue) =
      (a.letters.filter (Memory.inQueue queue)).map (letterRow json) := by
    rw [h.rows, List.filter_map]
    congr 1
    refine List.filter_congr (fun d _ => ?_)
    rw [Function.comp_apply, inQueue, Memory.inQueue, Bool.decide_or]
    rfl
  rw [hfilter, orderBy, byTime]
  refine (List.map_insertionSort newerFirst listedFirst _ _ (fun d hd e he => ?_)).symm
  exact listedFirst_letterRow (h.regular d (List.mem_of_mem_filter hd))
    (h.regular e (List.mem_of_mem_filter he))

theorem Files.countDeadLetters {db : Database} {a : Archive} (h : Files json db a)
    (queue : String) :
    (db.countDeadLetters queue).1 = .ok ((byTime a queue).length : ℤ) := by
  rw [Database.countDeadLetters, List.countP_eq_length_filter,
    ← List.length_insertionSort listedFirst, ← orderBy, h.listed, List.length_map]

/-- A page of a listing, under the limits of the filter. -/
def pageOf (filter : DeadLetterFilter) (listing : List DeadLetter) : List DeadLetter :=
  (listing.drop filter.normalise.offset.toNat).take filter.normalise.limit.toNat

theorem normalise_limit_pos (filter : DeadLetterFilter) : 0 < filter.normalise.limit := by
  simp only [DeadLetterFilter.normalise]
  by_cases h : filter.limit ≤ 0 ∨ filter.limit > maxPageSize
  · rw [if_pos h]
    decide
  · rw [if_neg h]
    exact not_le.mp (not_or.mp h).1

theorem Files.list {db : Database} {a : Archive} (h : Files json db a) (filter : DeadLetterFilter) :
    (db.listDeadLetters json filter).1 = .ok (pageOf filter (byTime a filter.queue)) := by
  have hregular : ∀ d ∈ pageOf filter (byTime a filter.queue), RegularLetter d := by
    intro d hd
    have hin := List.mem_of_mem_drop (List.mem_of_mem_take hd)
    have hletter := List.mem_of_mem_filter ((byTime_perm a filter.queue).subset hin)
    exact h.regular d (List.mem_reverse.mp hletter)
  rw [Database.listDeadLetters]
  simp only
  rw [show filter.normalise.queue = filter.queue from rfl, h.listed, offset, limit,
    if_neg (not_lt.mpr (normalise_limit_pos filter).le), ← List.map_drop, ← List.map_take]
  exact scanRows_letters hregular

theorem holds_list {s : Memory.Store} {a : Archive} (h : Holds s a) (filter : DeadLetterFilter) :
    (s.listDeadLetters filter).1 = .ok (pageOf filter (a.listing filter.queue)) := by
  rw [Memory.Store.listDeadLetters, Memory.listLoop_eq, List.filterMap_reverse,
    h.letters.filterMap_lookup, List.nil_append, List.length_nil, Nat.cast_zero, sub_zero, sub_zero]
  rfl

/-- Two listings of one length that have the same pages are the same. -/
theorem eq_of_pages {l l' : List DeadLetter} (hlen : l.length = l'.length) (queue : String)
    (h : ∀ limit offset, pageOf ⟨queue, limit, offset⟩ l = pageOf ⟨queue, limit, offset⟩ l') :
    l = l' := by
  have hpage : ∀ (k : ℕ) (m : List DeadLetter),
      pageOf ⟨queue, 1, k⟩ m = (m.drop (k * 1)).take 1 := by
    intro k m
    have hk : ¬ ((k : ℤ) < 0) := by omega
    simp [pageOf, DeadLetterFilter.normalise, maxPageSize, hk]
  have hwhole : ∀ m : List DeadLetter,
      ((List.range m.length).map (fun k : ℕ => pageOf ⟨queue, 1, k⟩ m)).flatten = m := by
    intro m
    simp only [hpage]
    rw [flatten_slices, mul_one, List.take_length]
  rw [← hwhole l, ← hwhole l', hlen]
  simp only [h]

/-! ## Whole runs -/

/-- The drivers agree on everything but the order of a listing. -/
structure ArchivesAgree (json : JsonMaps) (cs : List Call) : Prop where
  replies : ∀ ds c fs, cs = ds ++ c :: fs → Archival c →
    (Memory.exec c (after Memory.exec Memory.Store.new ds)).1 =
      (call json c (after (call json) Database.new ds)).1
  counts : ∀ queue, ((after Memory.exec Memory.Store.new cs).countDeadLetters queue).1 =
    ((after (call json) Database.new cs).countDeadLetters queue).1
  listed : ∀ queue, ∃ l l', l.Perm l' ∧ ∀ limit offset,
    ((after Memory.exec Memory.Store.new cs).listDeadLetters ⟨queue, limit, offset⟩).1 =
        .ok (pageOf ⟨queue, limit, offset⟩ l) ∧
      ((after (call json) Database.new cs).listDeadLetters json ⟨queue, limit, offset⟩).1 =
        .ok (pageOf ⟨queue, limit, offset⟩ l')

/-- Letters and events are kept alike, whatever else is done to the stores. -/
theorem archives_agree (json : JsonMaps) (cs : List Call) (hcs : ∀ c ∈ cs, Archivable c) :
    ArchivesAgree json cs := by
  have h : Shared json _ _ _ _ := after_shared hcs
  refine ⟨?_, fun queue => ?_, fun queue => ?_⟩
  · rintro ds c fs rfl hc
    have hds : Shared json _ _ _ _ := after_shared (fun d hd => hcs d (List.mem_append_left _ hd))
    rw [call_of_open json hds.openedDb]
    exact hds.reply (hcs c (by simp)) hc
  · rw [h.holds.listing_length, h.files.countDeadLetters, (byTime_perm _ queue).length_eq]
  · exact ⟨_, _, (byTime_perm _ queue).symm, fun limit offset =>
      ⟨holds_list h.holds ⟨queue, limit, offset⟩, h.files.list ⟨queue, limit, offset⟩⟩⟩

/-- A letter of one queue, filed at an instant. -/
def filedAt (id : String) (time : Time) : DeadLetter :=
  { Memory.bareLetter id "orders" with payload := some [1], deadLetteredAt := time }

/-- Two letters are saved, the second with the given time, and the first one is replayed. -/
def filedTwice (second : Time) : List Call :=
  [.saveDeadLetter (filedAt "a" 5) "", .append [Memory.arrival "m" "orders" 3],
    .saveDeadLetter (filedAt "b" second) "", .markDeadLetterReplayed "a" "n" 8,
    .appendHistory ⟨"m", "orders", .queued, .queued, "", "published", 3⟩, .history "m"]

theorem filedTwice_archivable {second : Time} (h : InYears second) :
    ∀ c ∈ filedTwice second, Archivable c := by
  have hzero : InYears 0 := inYears_zeroTime
  intro c hc
  simp only [filedTwice, List.mem_cons, List.not_mem_nil, or_false] at hc
  rcases hc with rfl | rfl | rfl | rfl | rfl | rfl
  · exact ⟨by decide, hzero, hzero, show InYears 5 from by decide, hzero⟩
  · trivial
  · exact ⟨by simp [filedAt, Payload.bytes], hzero, hzero, h, hzero⟩
  · exact show InYears 8 from by decide
  · exact show InYears 3 from by decide
  · trivial

theorem archives_agree_filedTwice : ArchivesAgree tally (filedTwice 4) :=
  archives_agree tally _ (filedTwice_archivable (by decide))

/-- Both drivers list the letters of a queue alike, on all pages, exactly if the letters were
saved in the order of their times. -/
theorem listings_agree_iff (json : JsonMaps) (cs : List Call) (hcs : ∀ c ∈ cs, Archivable c)
    (queue : String) :
    (∀ limit offset,
      ((after Memory.exec Memory.Store.new cs).listDeadLetters ⟨queue, limit, offset⟩).1 =
        ((after (call json) Database.new cs).listDeadLetters json ⟨queue, limit, offset⟩).1) ↔
      ((archiveAfter cs).listing queue).Pairwise newerFirst := by
  have h : Shared json _ _ _ _ := after_shared hcs
  rw [← byTime_eq_listing h.files.nodup queue]
  have hpages : ∀ limit offset,
      ((after Memory.exec Memory.Store.new cs).listDeadLetters ⟨queue, limit, offset⟩).1 =
        ((after (call json) Database.new cs).listDeadLetters json ⟨queue, limit, offset⟩).1 ↔
      pageOf ⟨queue, limit, offset⟩ ((archiveAfter cs).listing queue) =
        pageOf ⟨queue, limit, offset⟩ (byTime (archiveAfter cs) queue) := by
    intro limit offset
    rw [holds_list h.holds, h.files.list, Except.ok.injEq]
  simp only [hpages]
  constructor
  · intro hsame
    exact (eq_of_pages (byTime_perm _ queue).length_eq.symm queue hsame).symm
  · intro heq limit offset
    rw [heq]

/-- A clock that was set back changes the listing of one driver only. -/
theorem listings_agree_iff_filedTwice :
    ¬ ∀ limit offset,
      ((after Memory.exec Memory.Store.new (filedTwice 4)).listDeadLetters
        ⟨"orders", limit, offset⟩).1 =
      ((after (call tally) Database.new (filedTwice 4)).listDeadLetters tally
        ⟨"orders", limit, offset⟩).1 := by
  rw [listings_agree_iff tally _ (filedTwice_archivable (by decide)) "orders"]
  decide +kernel

/-- The listing of a queue by time, page by page. -/
structure PagedByTime (json : JsonMaps) (db : Database) (a : Archive) (queue : String)
    (limit : ℤ) : Prop where
  pages : ∃ page n, (∀ k : ℕ, (db.listDeadLetters json ⟨queue, limit, k * limit⟩).1 =
    .ok (page k)) ∧ Paged limit.toNat (byTime a queue) page n
  sorted : (byTime a queue).Pairwise newerFirst
  complete : ∀ d, d ∈ byTime a queue ↔ d ∈ a.letters ∧ (queue = "" ∨ d.queue = queue)
  once : ((byTime a queue).map DeadLetter.id).Nodup
  counted : (db.countDeadLetters queue).1 = .ok ((byTime a queue).length : ℤ)

theorem pageOf_page {queue : String} {limit : ℤ} (h1 : 1 ≤ limit) (h2 : limit ≤ maxPageSize)
    (k : ℕ) (l : List DeadLetter) :
    pageOf ⟨queue, limit, k * limit⟩ l = (l.drop (k * limit.toNat)).take limit.toNat := by
  have hoffset : 0 ≤ (k : ℤ) * limit := by positivity
  simp only [pageOf, DeadLetterFilter.normalise]
  rw [if_neg (by omega), if_neg (by omega), Int.toNat_mul (by omega) (by omega), Int.toNat_natCast]

/-- The pages of the table partition the letters of a queue, ordered by time. -/
theorem deadLetters_pagedByTime (json : JsonMaps) (cs : List Call) (hcs : ∀ c ∈ cs, Archivable c)
    (queue : String) (limit : ℤ) (h1 : 1 ≤ limit) (h2 : limit ≤ 500) :
    PagedByTime json (after (call json) Database.new cs) (archiveAfter cs) queue limit := by
  have h : Shared json _ _ _ _ := after_shared hcs
  refine ⟨⟨_, _, fun k => ?_, paged_slices (by omega) _⟩, byTime_pairwise _ queue, fun d => ?_, ?_,
    h.files.countDeadLetters queue⟩
  · rw [h.files.list, pageOf_page h1 h2]
  · rw [byTime, List.mem_insertionSort, List.mem_filter, Memory.inQueue, decide_eq_true_eq]
  · have hsub : ((archiveAfter cs).letters.filter (Memory.inQueue queue)).Sublist
        (archiveAfter cs).letters := List.filter_sublist
    exact ((List.perm_insertionSort newerFirst _).map DeadLetter.id).nodup_iff.mpr
      (h.files.nodup.sublist (hsub.map _))

theorem deadLetters_pagedByTime_filedTwice :
    (byTime (archiveAfter (filedTwice 4)) "orders").map DeadLetter.id = ["a", "b"] ∧
      PagedByTime tally (after (call tally) Database.new (filedTwice 4))
        (archiveAfter (filedTwice 4)) "orders" 1 :=
  ⟨by decide +kernel, deadLetters_pagedByTime tally _ (filedTwice_archivable (by decide)) "orders" 1
    (by decide) (by decide)⟩

end RabbitmqLite.Storage.Sqlite
