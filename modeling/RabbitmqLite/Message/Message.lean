import RabbitmqLite.Message.State
import Mathlib.Data.Finmap

/-! # The message record and its guarded state change

An instant is the signed number of nanoseconds since the zero `time.Time`, so
the zero instant is the unset one and a change of location is the identity.
A header map is a finite map; the nil map is identified with the empty one. A
payload may be nil, which is not the same as empty to the SQLite driver.
-/

namespace RabbitmqLite

abbrev Time := ℤ
abbrev Duration := ℤ
abbrev Headers := Finmap (fun _ : String => String)

/-- A slice of bytes; `none` is nil. -/
abbrev Payload := Option (List UInt8)

/-- `append(json.RawMessage(nil), payload...)`, which is nil if there are no bytes. -/
def Payload.copied : Payload → Payload
  | some [] => none
  | payload => payload

def Payload.bytes (payload : Payload) : List UInt8 := payload.getD []

@[simp] theorem Payload.bytes_copied (payload : Payload) :
    (Payload.copied payload).bytes = payload.bytes :=
  match payload with
  | none | some [] | some (_ :: _) => rfl

theorem Payload.copied_some_bytes (payload : Payload) :
    Payload.copied (some payload.bytes) = Payload.copied payload :=
  match payload with
  | none | some [] | some (_ :: _) => rfl

/-- Only an empty payload is not the same when it is copied. -/
theorem Payload.copied_eq_self {payload : Payload} (h : payload.bytes ≠ []) :
    Payload.copied payload = payload := by
  rcases payload with _ | (_ | ⟨b, bs⟩)
  · rfl
  · exact absurd rfl h
  · rfl

theorem Payload.ne_none {payload : Payload} (h : payload.bytes ≠ []) : payload ≠ none := by
  rintro rfl
  exact h rfl

@[simp] theorem Payload.copied_copied (payload : Payload) :
    Payload.copied (Payload.copied payload) = Payload.copied payload :=
  match payload with
  | none | some [] | some (_ :: _) => rfl

def millisecond : Duration := 1000000
def second : Duration := 1000 * millisecond

/-- The zero `time.Time`, which stands for an unset instant. -/
def zeroTime : Time := 0

structure Publication where
  exchange : String
  routingKey : String
  payload : Payload
  headers : Headers
  schema : String
  deriving DecidableEq

structure Message where
  id : String
  exchange : String
  routingKey : String
  queue : String
  schema : String
  payload : Payload
  headers : Headers
  state : State
  attempts : ℤ
  maxAttempts : ℤ
  lastError : String
  createdAt : Time
  updatedAt : Time
  availableAt : Time
  deriving DecidableEq

/-- The parts of a message that no store operation may touch. -/
structure Content where
  id : String
  queue : String
  exchange : String
  routingKey : String
  schema : String
  payload : Payload
  headers : Headers
  deriving DecidableEq

/-- The two ways in which `Transition` refuses. -/
inductive TransitionError where
  | unknownState (state : State)
  | invalidTransition (source target : State)
  deriving DecidableEq, Repr

namespace Message

/-- A fresh message. The generated identifier is the first argument. -/
def new (id : String) (pub : Publication) (queue : String) (now : Time) : Message where
  id := id
  exchange := pub.exchange
  routingKey := pub.routingKey
  queue := queue
  schema := pub.schema
  payload := Payload.copied pub.payload
  headers := pub.headers
  state := .created
  attempts := 0
  maxAttempts := 0
  lastError := ""
  createdAt := now
  updatedAt := now
  availableAt := now

def transition (m : Message) (next : State) (now : Time) : Except TransitionError Message :=
  if !next.valid then .error (.unknownState next)
  else if !m.state.canTransitionTo next then .error (.invalidTransition m.state next)
  else .ok { m with state := next, updatedAt := now }

def exhausted (m : Message) : Bool :=
  decide (m.maxAttempts > 0) && decide (m.attempts ≥ m.maxAttempts)

def clone (m : Message) : Message := { m with payload := Payload.copied m.payload }

def header (m : Message) (key : String) : Option String := m.headers.lookup key

def setHeader (m : Message) (key value : String) : Message :=
  { m with headers := m.headers.insert key value }

@[simp] theorem clone_id (m : Message) : m.clone.id = m.id := rfl

@[simp] theorem clone_queue (m : Message) : m.clone.queue = m.queue := rfl

@[simp] theorem clone_state (m : Message) : m.clone.state = m.state := rfl

@[simp] theorem clone_attempts (m : Message) : m.clone.attempts = m.attempts := rfl

@[simp] theorem clone_availableAt (m : Message) : m.clone.availableAt = m.availableAt := rfl

@[simp] theorem clone_clone (m : Message) : m.clone.clone = m.clone := by
  simp [clone]

theorem clone_eq_self {m : Message} (h : Payload.copied m.payload = m.payload) : m.clone = m := by
  rw [clone, h]

theorem transition_eq (m : Message) {next : State} (hn : next.valid = true) (now : Time) :
    m.transition next now =
      if m.state.canTransitionTo next then .ok { m with state := next, updatedAt := now }
      else .error (.invalidTransition m.state next) := by
  cases h : m.state.canTransitionTo next <;> simp [transition, h, hn]

def content (m : Message) : Content where
  id := m.id
  queue := m.queue
  exchange := m.exchange
  routingKey := m.routingKey
  schema := m.schema
  payload := m.payload
  headers := m.headers

end Message
end RabbitmqLite
