import RabbitmqLite.Storage.Memory.RecordStep

/-! # The ledgers and the tables of the topology

Dead letters and history are changed by the methods made for them and by no
other method, and so are exchanges, queues and bindings.
-/

namespace RabbitmqLite.Storage.Memory
open Broker Collections

/-- The two ledgers and the flag of a closed store. -/
structure SameLedger (s t : Store) : Prop where
  letters : t.deadLetters = s.deadLetters
  order : t.deadOrder = s.deadOrder
  history : t.history = s.history
  closed : t.closed = s.closed

structure SameTables (s t : Store) : Prop where
  exchanges : t.exchanges = s.exchanges
  queues : t.queues = s.queues
  bindings : t.bindings = s.bindings

theorem SameTables.refl (s : Store) : SameTables s s := ⟨rfl, rfl, rfl⟩

/-- The calls that write to a ledger or close the store. -/
def Recording : Call → Prop
  | .saveDeadLetter _ _ | .markDeadLetterReplayed _ _ _ | .deleteDeadLetter _
  | .appendHistory _ | .close => True
  | _ => False

/-- The calls that write to a table of the topology. -/
def Declaring : Call → Prop
  | .saveExchange _ | .saveQueue _ | .deleteQueue _ | .saveBinding _ | .deleteBinding _ => True
  | _ => False

theorem onLeased_untouched {s : Store} {id : String} {change : Record → Store}
    (h : ∀ entry, SameLedger s (change entry) ∧ SameTables s (change entry)) :
    SameLedger s (s.onLeased id change).2 ∧ SameTables s (s.onLeased id change).2 := by
  rcases s.onLeased_cases id change with ⟨entry, -, -, he⟩ | ⟨e, he⟩ <;> rw [he]
  · exact h entry
  · exact ⟨⟨rfl, rfl, rfl, rfl⟩, rfl, rfl, rfl⟩

theorem exec_untouched {c : Call} (hr : ¬ Recording c) (hd : ¬ Declaring c) (s : Store) :
    SameLedger s (exec c s).2 ∧ SameTables s (exec c s).2 := by
  cases c with
  | saveDeadLetter | markDeadLetterReplayed | deleteDeadLetter | appendHistory | close =>
    exact absurd trivial hr
  | saveExchange | saveQueue | deleteQueue | saveBinding | deleteBinding => exact absurd trivial hd
  | append msgs =>
    rcases s.append_cases msgs with ⟨e, h⟩ | ⟨-, h⟩ <;> simp only [exec, h] <;>
      exact ⟨⟨rfl, rfl, rfl, rfl⟩, rfl, rfl, rfl⟩
  | claim req =>
    obtain ⟨order, settled, ⟨e, h⟩ | ⟨picked, messages, -, -, h⟩⟩ := s.claim_cases req <;>
      simp only [exec, h] <;> exact ⟨⟨rfl, rfl, rfl, rfl⟩, rfl, rfl, rfl⟩
  | acknowledge id now =>
    simp only [exec, Store.acknowledge_eq]
    exact onLeased_untouched (fun entry => ⟨⟨rfl, rfl, rfl, rfl⟩, rfl, rfl, rfl⟩)
  | scheduleRetry req =>
    simp only [exec, Store.scheduleRetry_eq]
    exact onLeased_untouched (fun entry => ⟨⟨rfl, rfl, rfl, rfl⟩, rfl, rfl, rfl⟩)
  | release id now =>
    simp only [exec, Store.release_eq]
    exact onLeased_untouched (fun entry => ⟨⟨rfl, rfl, rfl, rfl⟩, rfl, rfl, rfl⟩)
  | markDeadLettered id reason now =>
    simp only [exec, Store.markDeadLettered_eq]
    split
    · exact ⟨⟨rfl, rfl, rfl, rfl⟩, rfl, rfl, rfl⟩
    · split_ifs <;> exact ⟨⟨rfl, rfl, rfl, rfl⟩, rfl, rfl, rfl⟩
  | purge queue =>
    rcases s.purge_cases queue with h | ⟨n, order, settled, messages, -, h⟩ <;>
      simp only [exec, h] <;> exact ⟨⟨rfl, rfl, rfl, rfl⟩, rfl, rfl, rfl⟩
  | deadLetter | message | depth =>
    simp only [exec, Store.deadLetter, Store.message, Store.depth]
    split <;> exact ⟨⟨rfl, rfl, rfl, rfl⟩, rfl, rfl, rfl⟩
  | exchanges | queues | bindings | expiredLeases | history =>
    exact ⟨⟨rfl, rfl, rfl, rfl⟩, rfl, rfl, rfl⟩

theorem exec_sameLedger {c : Call} (hc : ¬ Recording c) (s : Store) :
    SameLedger s (exec c s).2 := by
  by_cases hd : Declaring c
  · cases c with
    | saveExchange | saveQueue | saveBinding =>
      simp only [exec, Store.saveExchange, Store.saveQueue, Store.saveBinding, Store.unlessClosed]
      split_ifs <;> exact ⟨rfl, rfl, rfl, rfl⟩
    | deleteQueue | deleteBinding =>
      simp only [exec, Store.deleteQueue, Store.deleteBinding]
      split <;> exact ⟨rfl, rfl, rfl, rfl⟩
    | _ => exact hd.elim
  · exact (exec_untouched hc hd s).1

theorem exec_sameTables {c : Call} (hc : ¬ Declaring c) (s : Store) :
    SameTables s (exec c s).2 := by
  by_cases hr : Recording c
  · cases c with
    | saveDeadLetter entry newID =>
      simp only [exec, Store.saveDeadLetter, Store.unlessClosed]
      split_ifs
      · exact ⟨rfl, rfl, rfl⟩
      all_goals split <;> exact ⟨rfl, rfl, rfl⟩
    | appendHistory event =>
      simp only [exec, Store.appendHistory, Store.unlessClosed]
      split_ifs <;> exact ⟨rfl, rfl, rfl⟩
    | markDeadLetterReplayed | deleteDeadLetter =>
      simp only [exec, Store.markDeadLetterReplayed, Store.deleteDeadLetter]
      split <;> exact ⟨rfl, rfl, rfl⟩
    | close => exact ⟨rfl, rfl, rfl⟩
    | _ => exact hr.elim
  · exact (exec_untouched hr hc s).2

end RabbitmqLite.Storage.Memory
