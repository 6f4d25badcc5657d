import RabbitmqLite.Message.Message

/-! # Exchanges, queues and bindings, and their validation

The declarations a client may send, with the defaults and the checks the
broker applies to them. Lengths are counted in bytes, as the source does.
-/

namespace RabbitmqLite.Broker

def maxNameLength : ℕ := 128
def maxRoutingKeyLength : ℕ := 255
def defaultMaxAttempts : ℤ := 3
def defaultVisibilityTime : Duration := 30 * second

/-- The errors of the broker. `quoting` is a field error whose reason ends with the text that was
given, in the quotes of `%q`. -/
inductive Error where
  | queueNotFound
  | queueExists
  | exchangeNotFound
  | exchangeExists
  | bindingNotFound
  | queueInUse
  | unroutable
  | field (field reason : String)
  | quoting (field reason given : String)
  deriving DecidableEq, Repr

def invalid (field reason : String) : Error := .field field reason

/-- The kind of an exchange; any other text is carried as it was given. -/
inductive ExchangeKind where
  | direct
  | fanout
  | topic
  | other (raw : String)
  deriving DecidableEq, Repr

def ExchangeKind.text : ExchangeKind → String
  | .direct => "direct"
  | .fanout => "fanout"
  | .topic => "topic"
  | .other raw => raw

/-- The kind a text stands for. -/
def ExchangeKind.ofText (raw : String) : ExchangeKind :=
  if raw = "direct" then .direct
  else if raw = "fanout" then .fanout
  else if raw = "topic" then .topic
  else .other raw

def parseExchangeKind : ExchangeKind → Except Error ExchangeKind
  | .other raw => .error (.quoting "kind" "must be one of direct, fanout, topic, got " raw)
  | kind => .ok kind

structure ExchangeSpec where
  name : String
  kind : ExchangeKind
  durable : Bool
  deriving DecidableEq

structure Exchange extends ExchangeSpec where
  createdAt : Time
  deriving DecidableEq

structure QueueSpec where
  name : String
  durable : Bool
  maxAttempts : ℤ
  visibilityTimeout : Duration
  schema : String
  deriving DecidableEq

structure Queue extends QueueSpec where
  createdAt : Time
  deriving DecidableEq

structure BindingSpec where
  exchange : String
  queue : String
  routingKey : String
  deriving DecidableEq

structure Binding extends BindingSpec where
  createdAt : Time
  deriving DecidableEq

def isNameStart (c : Char) : Bool := c.isAlphanum

def isNameChar (c : Char) : Bool := c.isAlphanum || c == '.' || c == '_' || c == '-'

/-- The anchored name pattern: one alphanumeric, then name characters. -/
def namePattern (value : String) : Bool :=
  match value.toList with
  | [] => false
  | c :: cs => isNameStart c && cs.all isNameChar

def validateName (field value : String) : Except Error Unit :=
  if value = "" then .error (invalid field "must not be empty")
  else if value.utf8ByteSize > maxNameLength then .error (invalid field "exceeds maximum length")
  else if !namePattern value then
    .error (invalid field "must match [a-zA-Z0-9][a-zA-Z0-9._-]*")
  else .ok ()

def containsWildcard (text : String) : Bool := text.toList.any (fun c => c == '*' || c == '#')

/-- `strings.Split` on the segment separator; the empty text is one empty segment. -/
def split (text : String) : List String := (text.toList.splitOn '.').map String.ofList

def validateRoutingKey (key : String) : Except Error Unit :=
  if key = "" then .error (invalid "routing_key" "must not be empty")
  else if key.utf8ByteSize > maxRoutingKeyLength then
    .error (invalid "routing_key" "exceeds maximum length")
  else if containsWildcard key then
    .error (invalid "routing_key" "wildcards are only valid on topic exchanges")
  else .ok ()

def validateSegments : List String → Except Error Unit
  | [] => .ok ()
  | segment :: segments =>
    if segment = "" then .error (invalid "routing_key" "must not contain empty segments")
    else if containsWildcard segment && segment.utf8ByteSize != 1 then
      .error (invalid "routing_key" "wildcard segments must stand alone")
    else validateSegments segments

def validateBindingPattern (pattern : String) : Except Error Unit :=
  if pattern = "" then .error (invalid "routing_key" "must not be empty")
  else if pattern.utf8ByteSize > maxRoutingKeyLength then
    .error (invalid "routing_key" "exceeds maximum length")
  else validateSegments (split pattern)

def ExchangeSpec.validate (s : ExchangeSpec) : Except Error Unit := do
  validateName "exchange name" s.name
  let _ ← parseExchangeKind s.kind
  return ()

def QueueSpec.withDefaults (s : QueueSpec) : QueueSpec :=
  { s with
    maxAttempts := if s.maxAttempts = 0 then defaultMaxAttempts else s.maxAttempts
    visibilityTimeout :=
      if s.visibilityTimeout = 0 then defaultVisibilityTime else s.visibilityTimeout }

def QueueSpec.validate (s : QueueSpec) : Except Error Unit := do
  validateName "queue name" s.name
  if s.maxAttempts < 1 then throw (invalid "max_attempts" "must be at least 1")
  if s.visibilityTimeout ≤ 0 then throw (invalid "visibility_timeout" "must be positive")
  if s.schema ≠ "" then validateName "schema" s.schema

def BindingSpec.validate (s : BindingSpec) (kind : ExchangeKind) : Except Error Unit := do
  validateName "exchange name" s.exchange
  validateName "queue name" s.queue
  match kind with
  | .fanout => return ()
  | .direct => validateRoutingKey s.routingKey
  | .topic => validateBindingPattern s.routingKey
  | .other _ => throw (invalid "kind" "unsupported exchange kind")

/-- The text under which two bindings count as the same one. -/
def BindingSpec.key (s : BindingSpec) : String :=
  s.exchange ++ "\x00" ++ s.queue ++ "\x00" ++ s.routingKey

end RabbitmqLite.Broker
