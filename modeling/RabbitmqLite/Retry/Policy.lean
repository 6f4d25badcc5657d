import RabbitmqLite.Message.Message
import Mathlib.Data.Rat.Defs

/-! # The retry policy

Floating-point numbers are taken as exact rationals; a conversion to a duration
truncates to whole nanoseconds.
-/

namespace RabbitmqLite.Retry

def defaultMaxAttempts : ℤ := 3
def defaultInitialInterval : Duration := 500 * millisecond
def defaultMaxInterval : Duration := 5 * 60 * second
def defaultMultiplier : ℚ := 2
def defaultJitterFraction : ℚ := 1 / 5

structure Policy where
  maxAttempts : ℤ
  initialInterval : Duration
  maxInterval : Duration
  multiplier : ℚ
  jitterFraction : ℚ
  deriving DecidableEq

/-- The setting a policy is refused for, with the value found. -/
inductive PolicyError where
  | maxAttempts (found : ℤ)
  | initialInterval (found : Duration)
  | maxInterval (found initial : Duration)
  | multiplier (found : ℚ)
  | jitterFraction (found : ℚ)
  deriving DecidableEq

/-- The conversion to an integer, which drops the fraction. -/
def truncate (q : ℚ) : ℤ := q.num.tdiv q.den

namespace Policy

def default : Policy where
  maxAttempts := defaultMaxAttempts
  initialInterval := defaultInitialInterval
  maxInterval := defaultMaxInterval
  multiplier := defaultMultiplier
  jitterFraction := defaultJitterFraction

def withDefaults (p : Policy) : Policy where
  maxAttempts := if p.maxAttempts ≤ 0 then default.maxAttempts else p.maxAttempts
  initialInterval := if p.initialInterval ≤ 0 then default.initialInterval else p.initialInterval
  maxInterval := if p.maxInterval ≤ 0 then default.maxInterval else p.maxInterval
  multiplier := if p.multiplier ≤ 0 then default.multiplier else p.multiplier
  jitterFraction := if p.jitterFraction < 0 then 0 else p.jitterFraction

def validate (p : Policy) : Except PolicyError Unit :=
  if p.maxAttempts < 1 then .error (.maxAttempts p.maxAttempts)
  else if p.initialInterval ≤ 0 then .error (.initialInterval p.initialInterval)
  else if p.maxInterval < p.initialInterval then
    .error (.maxInterval p.maxInterval p.initialInterval)
  else if p.multiplier < 1 then .error (.multiplier p.multiplier)
  else if p.jitterFraction < 0 ∨ p.jitterFraction > 1 then
    .error (.jitterFraction p.jitterFraction)
  else .ok ()

def shouldRetry (p : Policy) (attempts : ℤ) : Bool := decide (attempts < p.maxAttempts)

/-- Exact numbers are never infinite, so the cap is the only guard. -/
def backoff (p : Policy) (attempt : ℤ) : Duration :=
  let attempt := if attempt < 1 then 1 else attempt
  let scaled := (p.initialInterval : ℚ) * p.multiplier ^ (attempt - 1).toNat
  if scaled > p.maxInterval then p.maxInterval else truncate scaled

/-- The last argument is what the randomiser returned. -/
def backoffWithJitter (p : Policy) (attempt : ℤ) (drawn : ℚ) : Duration :=
  let base := p.backoff attempt
  if p.jitterFraction = 0 then base
  else
    let spread := (base : ℚ) * p.jitterFraction
    let offset := spread * (2 * drawn - 1)
    let jittered := truncate (base + offset)
    if jittered < 0 then 0 else if jittered > p.maxInterval then p.maxInterval else jittered

def nextAttemptAt (p : Policy) (now : Time) (attempt : ℤ) (drawn : ℚ) : Time :=
  now + p.backoffWithJitter attempt drawn

theorem one_le_maxAttempts {p : Policy} (h : p.validate = .ok ()) : 1 ≤ p.maxAttempts := by
  unfold validate at h
  split_ifs at h
  omega

end Policy
end RabbitmqLite.Retry
