import Mathlib.Logic.Relation
import Mathlib.Tactic

/-! # The message lifecycle table

The states of a message and the table of permitted moves between them. Both
stores change a state only through this table; everything else in the
development that speaks of a legal lifecycle refers to it. A state of the source
is a text. Seven texts are declared, and a message that is appended may carry
any other.
-/

namespace RabbitmqLite

/-- The texts that are declared as states. -/
def declaredStates : List String :=
  ["CREATED", "QUEUED", "PROCESSING", "ACKNOWLEDGED", "FAILED", "RETRYING", "DEAD_LETTERED"]

inductive State where
  | created
  | queued
  | processing
  | acknowledged
  | failed
  | retrying
  | deadLettered
  | other (text : String) (undeclared : text ∉ declaredStates)
  deriving DecidableEq, Repr

/-- The table of permitted moves, one row for each state that is a key of it. -/
def transitions : List (State × List State) :=
  [(.created, [.queued, .failed]),
   (.queued, [.processing]),
   (.processing, [.acknowledged, .failed, .queued]),
   (.failed, [.retrying, .deadLettered]),
   (.retrying, [.queued]),
   (.acknowledged, []),
   (.deadLettered, [])]

namespace State

/-- A missing row reads as the empty list of moves. -/
def moves (s : State) : List State := (transitions.lookup s).getD []

def valid (s : State) : Bool := (transitions.lookup s).isSome

def terminal (s : State) : Bool := s.moves.length == 0

def canTransitionTo (s next : State) : Bool := s.moves.any (fun allowed => allowed == next)

/-- A state that has a row in the table. -/
theorem valid_eq (s : State) : s.valid = match s with
    | other _ _ => false
    | _ => true := by
  cases s <;> rfl

/-- The table read as a decision on pairs. -/
theorem canTransitionTo_eq (s next : State) :
    s.canTransitionTo next =
      match s, next with
      | created, queued | created, failed | queued, processing | processing, acknowledged
      | processing, failed | processing, queued | failed, retrying | failed, deadLettered
      | retrying, queued => true
      | _, _ => false := by
  cases s <;> cases next <;> rfl

/-- A state without a row counts as terminal. -/
theorem terminal_eq (s : State) : s.terminal = match s with
    | acknowledged | deadLettered | other _ _ => true
    | _ => false := by
  cases s <;> rfl

theorem terminal_of_valid {s : State} (h : s.valid = true) :
    s.terminal = true ↔ s = acknowledged ∨ s = deadLettered := by
  cases s <;> simp [terminal_eq, valid_eq] at h ⊢

/-- The states in which a store leaves a message that was queued. -/
def Resting (s : State) : Prop :=
  s ∈ [queued, processing, retrying, acknowledged, deadLettered]

theorem Resting.ne_failed {s : State} (h : s.Resting) : s ≠ failed := by
  rintro rfl
  simp [Resting] at h

/-- A legal path of single moves, possibly empty. -/
def Reaches : State → State → Prop :=
  Relation.ReflTransGen (fun s next => s.canTransitionTo next = true)

theorem Reaches.refl (s : State) : Reaches s s := Relation.ReflTransGen.refl

theorem Reaches.single {s next : State} (h : s.canTransitionTo next = true) : Reaches s next :=
  Relation.ReflTransGen.single h

theorem Reaches.trans {s t u : State} (hst : Reaches s t) (htu : Reaches t u) : Reaches s u :=
  Relation.ReflTransGen.trans hst htu

end State
end RabbitmqLite
