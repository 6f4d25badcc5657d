import RabbitmqLite.Storage.Memory.Index
import RabbitmqLite.Storage.Memory.Lifecycle

/-! # Calls that fail

Records are changed through pointers, with an error return between two
transitions of one call and inside the loop of `Claim`. Neither is ever taken:
a second transition is always allowed after the first. So a call that reports
an error has changed nothing, and a claim reports none.
-/

namespace RabbitmqLite.Storage.Memory
open Broker Collections Atomic

/-- A call that reports an error has not changed the store. -/
def Unchanged (s : Store) (c : Call) : Prop := ∀ e, (exec c s).1 = c.refuse e → (exec c s).2 = s

theorem unlessClosed_unchanged {α : Type} {s : Store} {outcome : Outcome α} {e : Error}
    (h : outcome.1 = .error e → outcome.2 = s) (hr : (s.unlessClosed outcome).1 = .error e) :
    (s.unlessClosed outcome).2 = s := by
  unfold Store.unlessClosed at hr ⊢
  split_ifs at hr ⊢ with hclosed
  · rfl
  · exact h hr

theorem onLeased_unchanged {s : Store} {id : String} {change : Record → Store} {e : Error}
    (hr : (s.onLeased id change).1 = .error e) : (s.onLeased id change).2 = s := by
  rcases s.onLeased_cases id change with ⟨entry, -, -, h⟩ | ⟨e', h⟩
  · rw [h] at hr
    cases hr
  · rw [h]

theorem append_unchanged {s : Store} {msgs : List Message} {e : Error}
    (hr : (s.append msgs).1 = .error e) : (s.append msgs).2 = s := by
  rcases s.append_cases msgs with ⟨e', h⟩ | ⟨-, h⟩
  · rw [h]
  · rw [h] at hr
    cases hr

theorem markDeadLettered_unchanged {s : Store} {id reason : String} {now : Time} {e : Error}
    (hr : (s.markDeadLettered id reason now).1 = .error e) :
    (s.markDeadLettered id reason now).2 = s := by
  rw [Store.markDeadLettered_eq] at hr ⊢
  cases hl : s.messages.lookup id with
  | none => rfl
  | some entry =>
    rw [hl] at hr
    dsimp only at hr ⊢
    split_ifs at hr ⊢ with hd
    rfl

theorem saveDeadLetter_unchanged {s : Store} {entry : DeadLetter} {newID : String} {e : Error}
    (hr : (s.saveDeadLetter entry newID).1 = .error e) : (s.saveDeadLetter entry newID).2 = s := by
  refine unlessClosed_unchanged (fun h => ?_) hr
  revert h
  dsimp only
  split <;> intro h
  · rfl
  · cases h

/-- Only a claim can change the store before it is known to succeed. -/
theorem exec_unchanged (s : Store) {c : Call} (hc : ∀ req, c ≠ .claim req) : Unchanged s c := by
  intro e hr
  cases c with
  | claim req => exact absurd rfl (hc req)
  | append msgs => exact append_unchanged hr
  | acknowledge id now =>
    simp only [exec, Store.acknowledge_eq] at hr ⊢
    exact onLeased_unchanged hr
  | scheduleRetry req =>
    simp only [exec, Store.scheduleRetry_eq] at hr ⊢
    exact onLeased_unchanged hr
  | release id now =>
    simp only [exec, Store.release_eq] at hr ⊢
    exact onLeased_unchanged hr
  | markDeadLettered id reason now => exact markDeadLettered_unchanged hr
  | saveDeadLetter entry newID => exact saveDeadLetter_unchanged hr
  | saveExchange | saveQueue | saveBinding | appendHistory =>
    exact unlessClosed_unchanged (fun h => by cases h) hr
  | deleteQueue | deleteBinding | purge | markDeadLetterReplayed | deleteDeadLetter =>
    simp only [exec, Store.deleteQueue, Store.deleteBinding, Store.purge,
      Store.markDeadLetterReplayed, Store.deleteDeadLetter, Call.refuse] at hr ⊢
    revert hr
    split <;> intro hr
    · rfl
    · cases hr
  | message | depth | deadLetter =>
    simp only [exec, Store.message, Store.depth, Store.deadLetter]
    split <;> rfl
  | exchanges | queues | bindings | expiredLeases | history => rfl
  | close => cases hr

/-- After every run in which no batch names an id twice, a call other than a claim that
reports an error leaves the whole store as it was, and a claim with a legal limit on an open
store reports none. -/
theorem failures_change_nothing (cs : List Call) (hn : ∀ c ∈ cs, c.appendedIds.Nodup) :
    (∀ c, (∀ req, c ≠ .claim req) → Unchanged (after exec Store.new cs) c) ∧
      ∀ req, (after exec Store.new cs).closed = false → 0 ≤ req.limit →
        ∃ claimed, (exec (.claim req) (after exec Store.new cs)).1 = .ok claimed := by
  constructor
  · intro c hc
    exact exec_unchanged _ hc
  · intro req hopen hlimit
    have hindexed := after_indexed hn
    obtain ⟨t, messages, -, -, hclaim⟩ := hindexed.claim hopen hlimit
    exact ⟨_, congrArg Prod.fst hclaim⟩

def claimedOnce : List Call :=
  [.append [arrival "a" "orders" 1], .claim ⟨"orders", "c", 1, 30, 2⟩]

theorem failures_change_nothing_claimedOnce :
    (exec (.markDeadLettered "b" "" 3) (after exec Store.new claimedOnce)).1 = .error .notFound ∧
      (exec (.markDeadLettered "b" "" 3) (after exec Store.new claimedOnce)).2 =
        after exec Store.new claimedOnce := by
  have hrefused : (exec (.markDeadLettered "b" "" 3) (after exec Store.new claimedOnce)).1 =
      .error .notFound := by decide +kernel
  have hsteady := failures_change_nothing claimedOnce (by decide)
  exact ⟨hrefused, hsteady.1 _ (by simp) .notFound hrefused⟩

end RabbitmqLite.Storage.Memory
