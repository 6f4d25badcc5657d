import RabbitmqLite.Storage.Memory.Tables

/-! # Dead letters and history

The complete list of changes a call can make to the dead letter kept under one
id and to the history of one message.
-/

namespace RabbitmqLite.Storage.Memory
open Broker Collections

/-! ## Dead letters -/

/-- The letter as it is stored: one without an id gets the generated one. -/
def filed (entry : DeadLetter) (newID : String) : DeadLetter :=
  if entry.id = "" then { entry with id := newID } else entry

theorem filed_of_unnamed {entry : DeadLetter} (h : entry.id = "") (newID : String) :
    filed entry newID = { entry with id := newID } := if_pos h

inductive LetterStep :
    (c : Call) → c.Reply → String → Option DeadLetter → Option DeadLetter → Prop where
  | same {c : Call} {reply : c.Reply} {id : String} {d : Option DeadLetter}
      (h : ∀ entry newID, c = .saveDeadLetter entry newID →
        reply ≍ (Except.ok () : Except Error Unit) → (filed entry newID).id ≠ id) :
      LetterStep c reply id d d
  | save {entry : DeadLetter} {newID : String} :
      LetterStep (.saveDeadLetter entry newID) (.ok ()) (filed entry newID).id none
        (some (filed entry newID))
  | replayed {id replayedAs : String} {now : Time} {d : DeadLetter} :
      LetterStep (.markDeadLetterReplayed id replayedAs now) (.ok ()) id (some d)
        (some { d with
          replayedAs := replayedAs, replayedAt := now, replayCount := d.replayCount + 1 })
  | delete {id : String} {d : DeadLetter} :
      LetterStep (.deleteDeadLetter id) (.ok ()) id (some d) none

theorem Store.saveDeadLetter_eq (s : Store) (entry : DeadLetter) (newID : String) :
    s.saveDeadLetter entry newID = s.unlessClosed
      (match s.deadLetters.lookup (filed entry newID).id with
       | some _ => (.error .conflict, s)
       | none =>
        (.ok (), { s with
          deadLetters := s.deadLetters.insert (filed entry newID).id (filed entry newID)
          deadOrder := s.deadOrder ++ [(filed entry newID).id] })) := rfl

theorem Store.saveDeadLetter_cases (s : Store) (entry : DeadLetter) (newID : String) :
    (∃ e, s.saveDeadLetter entry newID = (.error e, s)) ∨
      s.deadLetters.lookup (filed entry newID).id = none ∧
        s.saveDeadLetter entry newID = (.ok (), { s with
          deadLetters := s.deadLetters.insert (filed entry newID).id (filed entry newID)
          deadOrder := s.deadOrder ++ [(filed entry newID).id] }) := by
  rw [Store.saveDeadLetter_eq, Store.unlessClosed]
  split_ifs
  · exact Or.inl ⟨_, rfl⟩
  · cases hl : s.deadLetters.lookup (filed entry newID).id with
    | some d => exact Or.inl ⟨_, rfl⟩
    | none => exact Or.inr ⟨rfl, rfl⟩

/-- The inversion lemma for dead letters. -/
theorem exec_letterStep (c : Call) (s : Store) (id : String) :
    LetterStep c (exec c s).1 id (s.deadLetters.lookup id)
      ((exec c s).2.deadLetters.lookup id) := by
  by_cases hc : Recording c
  · cases c with
    | saveDeadLetter entry newID =>
      rcases s.saveDeadLetter_cases entry newID with ⟨e, h⟩ | ⟨hnone, h⟩ <;> simp only [exec, h]
      · apply LetterStep.same
        intro entry' newID' _ hr
        simp at hr
      · rw [lookup_insert_eq]
        split_ifs with hid
        · rw [hid, hnone]
          exact .save
        · apply LetterStep.same
          rintro entry' newID' hcall _
          obtain ⟨rfl, rfl⟩ := Call.saveDeadLetter.inj hcall
          exact Ne.symm hid
    | markDeadLetterReplayed i replayedAs now =>
      simp only [exec, Store.markDeadLetterReplayed]
      split
      · exact .same (by simp)
      · rename_i d hd
        rw [lookup_insert_eq]
        split_ifs with hid
        · rw [hid, hd]
          exact .replayed
        · exact .same (by simp)
    | deleteDeadLetter i =>
      simp only [exec, Store.deleteDeadLetter]
      split
      · exact .same (by simp)
      · rename_i d hd
        rw [lookup_erase_eq]
        split_ifs with hid
        · rw [hid, hd]
          exact .delete
        · exact .same (by simp)
    | appendHistory event =>
      have h : (exec (.appendHistory event) s).2.deadLetters = s.deadLetters := by
        simp only [exec, Store.appendHistory, Store.unlessClosed]
        split_ifs <;> rfl
      rw [h]
      exact .same (by simp)
    | close => exact .same (by simp)
    | _ => exact hc.elim
  · rw [(exec_sameLedger hc s).letters]
    apply LetterStep.same
    rintro entry newID rfl
    exact absurd trivial hc

/-- What no call changes in a dead letter. -/
def lasting (d : DeadLetter) : Content × String × ℤ := (d.content, d.errorKind, d.attempts)

/-- Only its deletion removes a dead letter, and nothing but its replay fields changes. -/
theorem LetterStep.kept {c : Call} {reply : c.Reply} {id : String} {d : DeadLetter}
    {d' : Option DeadLetter} (h : LetterStep c reply id (some d) d')
    (hc : c ≠ .deleteDeadLetter id) : ∃ e, d' = some e ∧ lasting e = lasting d := by
  cases h with
  | same => exact ⟨d, rfl, rfl⟩
  | replayed => exact ⟨_, rfl, rfl⟩
  | delete => exact absurd rfl hc

/-- A letter appears only by being saved. -/
theorem LetterStep.of_none {c : Call} {reply : c.Reply} {id : String} {d : DeadLetter}
    (h : LetterStep c reply id none (some d)) :
    ∃ entry newID, c = .saveDeadLetter entry newID ∧ (filed entry newID).id = id := by
  cases h with
  | save => exact ⟨_, _, rfl, rfl⟩

/-! ## History -/

/-- The events a call writes to the history of a message. -/
def written : (c : Call) → c.Reply → String → List HistoryEvent
  | .appendHistory event, .ok _, id => if event.messageID = id then [event] else []
  | _, _, _ => []

theorem exec_history (c : Call) (s : Store) (id : String) :
    (exec c s).2.history id = s.history id ++ written c (exec c s).1 id := by
  by_cases hc : Recording c
  · cases c with
    | appendHistory event =>
      simp only [exec, Store.appendHistory, Store.unlessClosed]
      split_ifs
      · simp [written]
      · by_cases hid : event.messageID = id
        · subst hid
          simp [written]
        · simp [written, Function.update_of_ne (Ne.symm hid), hid]
    | saveDeadLetter entry newID =>
      rcases s.saveDeadLetter_cases entry newID with ⟨e, h⟩ | ⟨-, h⟩ <;> simp [exec, h, written]
    | markDeadLetterReplayed =>
      simp only [exec, Store.markDeadLetterReplayed]
      split <;> simp [written]
    | deleteDeadLetter =>
      simp only [exec, Store.deleteDeadLetter]
      split <;> simp [written]
    | close => simp [exec, Store.close, written]
    | _ => exact hc.elim
  · have hw : written c (exec c s).1 id = [] := by
      cases c with
      | appendHistory => exact absurd trivial hc
      | _ => rfl
    rw [(exec_sameLedger hc s).history, hw, List.append_nil]

/-- An open store stays open until it is closed. -/
theorem exec_closed {c : Call} (hc : c ≠ .close) (s : Store) :
    (exec c s).2.closed = s.closed := by
  by_cases hr : Recording c
  · cases c with
    | saveDeadLetter entry newID =>
      rcases s.saveDeadLetter_cases entry newID with ⟨e, h⟩ | ⟨-, h⟩ <;> simp [exec, h]
    | markDeadLetterReplayed =>
      simp only [exec, Store.markDeadLetterReplayed]
      split <;> rfl
    | deleteDeadLetter =>
      simp only [exec, Store.deleteDeadLetter]
      split <;> rfl
    | appendHistory =>
      simp only [exec, Store.appendHistory, Store.unlessClosed]
      split_ifs <;> rfl
    | close => exact absurd rfl hc
    | _ => exact hr.elim
  · exact (exec_sameLedger hr s).closed

end RabbitmqLite.Storage.Memory
