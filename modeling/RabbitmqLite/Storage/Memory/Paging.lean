import RabbitmqLite.Atomic.Machine
import RabbitmqLite.Collections.Enumeration
import RabbitmqLite.Collections.Pages
import RabbitmqLite.Storage.Memory.Ledger

/-! # Listing dead letters page by page

The store keeps its dead letters in a map and their ids in a slice, in the order
in which they were saved. Both are read from one list of letters that grows at
its end, and the loop behind a page of the listing walks this list backwards,
skips and stops.
-/

namespace RabbitmqLite.Storage.Memory
open Broker Collections Atomic

/-! ## The archive -/

/-- The dead letters of a store, the oldest first. -/
structure Archive where
  letters : List DeadLetter
  closed : Bool

/-- The letter after it was replayed once more. -/
def replayedOnce (replayedAs : String) (now : Time) (d : DeadLetter) : DeadLetter :=
  { d with replayedAs := replayedAs, replayedAt := now, replayCount := d.replayCount + 1 }

/-- What a call does to the archive: a letter is added under a new id, marked or removed. -/
def Archive.take (a : Archive) : Call → Archive
  | .saveDeadLetter entry newID =>
    if a.closed ∨ (filed entry newID).id ∈ a.letters.map DeadLetter.id then a
    else { a with letters := a.letters ++ [filed entry newID] }
  | .markDeadLetterReplayed id replayedAs now =>
    { a with letters := a.letters.map (fun d =>
        if d.id = id then replayedOnce replayedAs now d else d) }
  | .deleteDeadLetter id => { a with letters := a.letters.filter (fun d => d.id ≠ id) }
  | .close => { a with closed := true }
  | _ => a

def archiveAfter (cs : List Call) : Archive := cs.foldl Archive.take ⟨[], false⟩

/-- The store holds the archive in its map and its slice. -/
structure Holds (s : Store) (a : Archive) : Prop where
  closed : s.closed = a.closed
  letters : Enumerated DeadLetter.id a.letters s.deadLetters s.deadOrder

theorem new_holds : Holds Store.new ⟨[], false⟩ := ⟨rfl, .empty _⟩

section Holds
variable {s t : Store} {a : Archive}

theorem Holds.same (h : Holds s a) (hs : SameLedger s t) : Holds t a := by
  refine ⟨hs.closed.trans h.closed, ?_⟩
  rw [hs.letters, hs.order]
  exact h.letters

theorem Holds.save (h : Holds s a) (entry : DeadLetter) (newID : String) :
    Holds (s.saveDeadLetter entry newID).2 (a.take (.saveDeadLetter entry newID)) := by
  rw [Store.saveDeadLetter_eq, Store.unlessClosed, Archive.take, ← h.closed]
  by_cases hc : s.closed = true
  · rw [if_pos hc, if_pos (Or.inl hc)]
    exact h
  · rw [if_neg hc]
    cases hl : s.deadLetters.lookup (filed entry newID).id with
    | some d =>
      have hmem : (filed entry newID).id ∈ a.letters.map DeadLetter.id := by
        obtain ⟨hd, hid⟩ := (h.letters.lookup _ d).mp hl
        exact List.mem_map.mpr ⟨d, hd, hid⟩
      rw [if_pos (Or.inr hmem)]
      exact h
    | none =>
      rw [if_neg (not_or.mpr ⟨hc, h.letters.lookup_eq_none.mp hl⟩)]
      exact ⟨rfl, h.letters.insert hl⟩

theorem Holds.mark (h : Holds s a) (id replayedAs : String) (now : Time) :
    Holds (s.markDeadLetterReplayed id replayedAs now).2
      (a.take (.markDeadLetterReplayed id replayedAs now)) := by
  rw [Store.markDeadLetterReplayed, Archive.take]
  cases hl : s.deadLetters.lookup id with
  | some d =>
    exact ⟨h.closed, h.letters.update (f := replayedOnce replayedAs now) (fun _ => rfl) hl⟩
  | none =>
    have hnone := h.letters.lookup_eq_none.mp hl
    have hsame : a.letters.map (fun d => if d.id = id then replayedOnce replayedAs now d else d) =
        a.letters := by
      refine (List.map_congr_left (fun d hd => if_neg (fun hid => ?_))).trans (List.map_id _)
      exact hnone (List.mem_map.mpr ⟨d, hd, hid⟩)
    rw [hsame]
    exact h

theorem Holds.delete (h : Holds s a) (id : String) :
    Holds (s.deleteDeadLetter id).2 (a.take (.deleteDeadLetter id)) := by
  rw [Store.deleteDeadLetter, Archive.take]
  cases hl : s.deadLetters.lookup id with
  | some d => exact ⟨h.closed, h.letters.erase id⟩
  | none =>
    have hnone := h.letters.lookup_eq_none.mp hl
    have hsame : a.letters.filter (fun d => d.id ≠ id) = a.letters := by
      rw [List.filter_eq_self]
      intro d hd
      rw [decide_eq_true_eq]
      exact fun hid => hnone (List.mem_map.mpr ⟨d, hd, hid⟩)
    rw [hsame]
    exact h

/-- Every call does to the store what it does to the archive. -/
theorem Holds.exec (h : Holds s a) (c : Call) : Holds (exec c s).2 (a.take c) := by
  cases c with
  | saveDeadLetter entry newID => exact h.save entry newID
  | markDeadLetterReplayed id replayedAs now => exact h.mark id replayedAs now
  | deleteDeadLetter id => exact h.delete id
  | close => exact ⟨rfl, h.letters⟩
  | appendHistory event =>
    simp only [Memory.exec, Store.appendHistory, Store.unlessClosed, Archive.take]
    split_ifs
    · exact h
    · exact ⟨h.closed, h.letters⟩
  | _ => exact h.same (exec_sameLedger (by exact id) s)

end Holds

theorem after_holds (cs : List Call) : Holds (after exec Store.new cs) (archiveAfter cs) := by
  induction cs using List.reverseRecOn with
  | nil => exact new_holds
  | append_singleton cs c ih =>
    rw [after_append, after_singleton, archiveAfter, List.foldl_append]
    exact ih.exec c

/-! ## One page -/

/-- The letters of a queue; without a queue all of them. -/
def inQueue (queue : String) (d : DeadLetter) : Bool := decide (queue = "" ∨ d.queue = queue)

/-- The loop takes what is left of the page from what is left of the listing. -/
theorem listLoop_eq (filter : DeadLetterFilter) (m : Map String DeadLetter) (ids : List String)
    (skipped : ℤ) (matched : List DeadLetter) :
    listLoop filter m ids skipped matched =
      matched ++ (((ids.filterMap m.lookup).filter (inQueue filter.queue)).drop
        (filter.offset - skipped).toNat).take (filter.limit - matched.length).toNat := by
  induction ids generalizing skipped matched with
  | nil => simp [listLoop]
  | cons id ids ih =>
    rw [listLoop]
    cases hl : m.lookup id with
    | none =>
      simp only [List.filterMap_cons, hl]
      exact ih skipped matched
    | some entry =>
      simp only [List.filterMap_cons, hl]
      split_ifs with hother hskip hfull
      · rw [List.filter_cons_of_neg (by simpa [inQueue] using hother)]
        exact ih skipped matched
      · have hthis : inQueue filter.queue entry = true := by
          simpa [inQueue, or_iff_not_imp_left] using hother
        have hnext :
            (filter.offset - skipped).toNat = (filter.offset - (skipped + 1)).toNat + 1 := by
          omega
        rw [List.filter_cons_of_pos hthis, hnext, List.drop_succ_cons]
        exact ih (skipped + 1) matched
      · have hnone : (filter.limit - matched.length).toNat = 0 := by omega
        rw [hnone, List.take_zero, List.append_nil]
      · have hthis : inQueue filter.queue entry = true := by
          simpa [inQueue, or_iff_not_imp_left] using hother
        have hstart : (filter.offset - skipped).toNat = 0 := by omega
        have hnext : (filter.limit - matched.length).toNat =
            (filter.limit - ((matched ++ [entry]).length : ℕ)).toNat + 1 := by
          simp only [List.length_append, List.length_singleton]
          omega
        rw [List.filter_cons_of_pos hthis, ih, hstart, hnext, List.drop_zero, List.drop_zero,
          List.take_succ_cons, List.append_assoc]
        rfl

/-! ## All pages -/

/-- The listing of a queue, newest first. -/
def Archive.listing (a : Archive) (queue : String) : List DeadLetter :=
  a.letters.reverse.filter (inQueue queue)

theorem Holds.page {s : Store} {a : Archive} (h : Holds s a) (queue : String) {limit : ℤ}
    (h1 : 1 ≤ limit) (h2 : limit ≤ maxPageSize) (k : ℕ) :
    (s.listDeadLetters ⟨queue, limit, k * limit⟩).1 =
      .ok (((a.listing queue).drop (k * limit.toNat)).take limit.toNat) := by
  have hoffset : 0 ≤ (k : ℤ) * limit := by positivity
  have hnormal : (⟨queue, limit, k * limit⟩ : DeadLetterFilter).normalise =
      ⟨queue, limit, k * limit⟩ := by
    simp only [DeadLetterFilter.normalise]
    rw [if_neg (by omega), if_neg (by omega)]
  have hdrop : ((k : ℤ) * limit - 0).toNat = k * limit.toNat := by
    rw [sub_zero, Int.toNat_mul (by omega) (by omega), Int.toNat_natCast]
  rw [Store.listDeadLetters, hnormal, listLoop_eq, List.filterMap_reverse,
    h.letters.filterMap_lookup, hdrop, List.nil_append, List.length_nil]
  simp [Archive.listing]

/-- The listing of a queue, page by page. -/
structure ListedInPages (s : Store) (a : Archive) (queue : String) (limit : ℤ) : Prop where
  pages : ∃ page n, (∀ k : ℕ, (s.listDeadLetters ⟨queue, limit, k * limit⟩).1 = .ok (page k)) ∧
    Paged limit.toNat (a.listing queue) page n
  complete : ∀ d, d ∈ a.listing queue ↔
    s.deadLetters.lookup d.id = some d ∧ (queue = "" ∨ d.queue = queue)
  once : ((a.listing queue).map DeadLetter.id).Nodup
  counted : (s.countDeadLetters queue).1 = .ok ((a.listing queue).length : ℤ)
  order : s.deadOrder.Nodup ∧ ∀ id, id ∈ s.deadOrder ↔ id ∈ s.deadLetters

theorem Holds.listing_length {s : Store} {a : Archive} (h : Holds s a) (queue : String) :
    (s.countDeadLetters queue).1 = .ok ((a.listing queue).length : ℤ) := by
  have hcount := h.letters.values_perm.countP_eq (inQueue queue)
  rw [Store.countDeadLetters, Archive.listing, List.filter_reverse, List.length_reverse,
    ← List.countP_eq_length_filter, ← hcount]
  rfl

/-- The pages of a run's dead letters partition the listing of the archive. -/
theorem deadLetters_listedInPages (cs : List Call) (queue : String) (limit : ℤ) (h1 : 1 ≤ limit)
    (h2 : limit ≤ 500) : ListedInPages (after exec Store.new cs) (archiveAfter cs) queue limit := by
  have h := after_holds cs
  have hids := h.letters.order_eq
  refine ⟨⟨_, _, fun k => h.page queue h1 h2 k, paged_slices (by omega) _⟩, fun d => ?_, ?_,
    h.listing_length queue, hids ▸ h.letters.nodup, fun id => h.letters.mem_order⟩
  · rw [h.letters.lookup, Archive.listing, List.mem_filter, List.mem_reverse, inQueue,
      decide_eq_true_eq]
    simp
  · have hreverse : ((archiveAfter cs).letters.reverse.map DeadLetter.id).Nodup := by
      rw [List.map_reverse, List.nodup_reverse]
      exact h.letters.nodup
    exact hreverse.sublist (List.filter_sublist.map _)

/-- A letter with nothing but its id and its queue. -/
def bareLetter (id queue : String) : DeadLetter :=
  ⟨id, "", queue, "", "", "", none, ∅, "", "", 0, 0, 0, 0, "", 0, 0⟩

/-- Three letters are saved, one is replayed and one removed. -/
def lettersRun : List Call :=
  [.saveDeadLetter (bareLetter "a" "orders") "", .saveDeadLetter (bareLetter "b" "bills") "",
    .saveDeadLetter (bareLetter "c" "orders") "", .markDeadLetterReplayed "a" "m" 7,
    .deleteDeadLetter "b"]

theorem deadLetters_listedInPages_lettersRun :
    ((archiveAfter lettersRun).listing "orders").map DeadLetter.id = ["c", "a"] ∧
      ListedInPages (after exec Store.new lettersRun) (archiveAfter lettersRun) "orders" 1 :=
  ⟨by decide +kernel, deadLetters_listedInPages lettersRun "orders" 1 (by decide) (by decide)⟩

end RabbitmqLite.Storage.Memory
