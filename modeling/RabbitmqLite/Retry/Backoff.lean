import RabbitmqLite.Retry.Policy
import Mathlib.Data.Rat.Floor
import Mathlib.Tactic

/-! # The bounds of the backoff

With exact numbers the backoff of a valid policy grows by a factor of at least
one until it meets the cap, and the jitter moves it by at most its fraction and
never beyond the cap. Both intervals are truncated only once, so that the bounds
hold for whole nanoseconds.
-/

namespace RabbitmqLite.Retry

/-! ## Truncation -/

theorem truncate_of_nonneg {q : ℚ} (h : 0 ≤ q) : truncate q = ⌊q⌋ := by
  have hnum : 0 ≤ q.num := Rat.num_nonneg.mpr h
  rw [truncate, Int.tdiv_eq_ediv_of_nonneg hnum, Rat.floor_def']

@[simp] theorem truncate_intCast (n : ℤ) : truncate n = n := by
  simp [truncate]

theorem truncate_nonneg {q : ℚ} (h : 0 ≤ q) : 0 ≤ truncate q := by
  rw [truncate_of_nonneg h]
  exact Int.floor_nonneg.mpr h

theorem truncate_le {q : ℚ} (h : 0 ≤ q) : (truncate q : ℚ) ≤ q := by
  rw [truncate_of_nonneg h]
  exact Int.floor_le q

theorem truncate_mono {q r : ℚ} (hq : 0 ≤ q) (h : q ≤ r) : truncate q ≤ truncate r := by
  rw [truncate_of_nonneg hq, truncate_of_nonneg (hq.trans h)]
  exact Int.floor_le_floor h

namespace Policy
variable {p : Policy}

/-! ## Policies that are accepted -/

/-- What `Validate` checks. -/
structure Valid (p : Policy) : Prop where
  maxAttempts : 1 ≤ p.maxAttempts
  initialInterval : 0 < p.initialInterval
  maxInterval : p.initialInterval ≤ p.maxInterval
  multiplier : 1 ≤ p.multiplier
  jitterFraction : 0 ≤ p.jitterFraction
  jitterFraction_le : p.jitterFraction ≤ 1

theorem valid_of_validate (h : p.validate = .ok ()) : p.Valid := by
  unfold validate at h
  split_ifs at h with hattempts hinitial hmax hmultiplier hjitter
  push Not at hattempts hinitial hmax hmultiplier hjitter
  exact ⟨hattempts, hinitial, hmax, hmultiplier, hjitter.1, hjitter.2⟩

/-! ## The backoff -/

/-- The interval before the cap, as an exact number. -/
def scaled (p : Policy) (attempt : ℤ) : ℚ :=
  p.initialInterval * p.multiplier ^ (max attempt 1 - 1).toNat

theorem backoff_eq (p : Policy) (attempt : ℤ) :
    p.backoff attempt = truncate (min (p.scaled attempt) p.maxInterval) := by
  have hfirst : (if attempt < 1 then 1 else attempt) = max attempt 1 := by
    split_ifs with h <;> omega
  simp only [backoff, hfirst]
  change
    (if p.scaled attempt > p.maxInterval then p.maxInterval else truncate (p.scaled attempt)) = _
  split_ifs with hcap
  · rw [min_eq_right hcap.le, truncate_intCast]
  · rw [min_eq_left (not_lt.mp hcap)]

theorem Valid.initial_le_scaled (h : p.Valid) (attempt : ℤ) :
    (p.initialInterval : ℚ) ≤ p.scaled attempt := by
  have hinitial : (0 : ℚ) ≤ p.initialInterval := by exact_mod_cast h.initialInterval.le
  exact le_mul_of_one_le_right hinitial (one_le_pow₀ h.multiplier)

theorem Valid.scaled_mono (h : p.Valid) {attempt later : ℤ} (hle : attempt ≤ later) :
    p.scaled attempt ≤ p.scaled later := by
  have hinitial : (0 : ℚ) ≤ p.initialInterval := by exact_mod_cast h.initialInterval.le
  refine mul_le_mul_of_nonneg_left (pow_le_pow_right₀ h.multiplier ?_) hinitial
  omega

theorem Valid.initial_le_capped (h : p.Valid) (attempt : ℤ) :
    (p.initialInterval : ℚ) ≤ min (p.scaled attempt) p.maxInterval :=
  le_min (h.initial_le_scaled attempt) (by exact_mod_cast h.maxInterval)

theorem Valid.capped_nonneg (h : p.Valid) (attempt : ℤ) :
    0 ≤ min (p.scaled attempt) p.maxInterval := by
  have hinitial : (0 : ℚ) < p.initialInterval := by exact_mod_cast h.initialInterval
  exact hinitial.le.trans (h.initial_le_capped attempt)

theorem Valid.backoff_pos (h : p.Valid) (attempt : ℤ) : 0 < p.backoff attempt := by
  have hinitial : (0 : ℚ) ≤ p.initialInterval := by exact_mod_cast h.initialInterval.le
  have hmono := truncate_mono hinitial (h.initial_le_capped attempt)
  rw [truncate_intCast, ← backoff_eq] at hmono
  exact h.initialInterval.trans_le hmono

theorem Valid.backoff_le (h : p.Valid) (attempt : ℤ) : p.backoff attempt ≤ p.maxInterval := by
  have hmono := truncate_mono (h.capped_nonneg attempt) (min_le_right _ (p.maxInterval : ℚ))
  rwa [truncate_intCast, ← backoff_eq] at hmono

theorem Valid.backoff_mono (h : p.Valid) {attempt later : ℤ} (hle : attempt ≤ later) :
    p.backoff attempt ≤ p.backoff later := by
  rw [backoff_eq, backoff_eq]
  exact truncate_mono (h.capped_nonneg attempt) (min_le_min_right _ (h.scaled_mono hle))

/-! ## The jitter -/

/-- The interval after the jitter and before the cap, as an exact number. -/
def jittered (p : Policy) (attempt : ℤ) (drawn : ℚ) : ℚ :=
  p.backoff attempt + p.backoff attempt * p.jitterFraction * (2 * drawn - 1)

/-- The jitter moves the backoff by at most its fraction, up or down. -/
theorem Valid.jittered_bounds (h : p.Valid) (attempt : ℤ) {drawn : ℚ} (h0 : 0 ≤ drawn)
    (h1 : drawn ≤ 1) :
    p.backoff attempt * (1 - p.jitterFraction) ≤ p.jittered attempt drawn ∧
      p.jittered attempt drawn ≤ p.backoff attempt * (1 + p.jitterFraction) := by
  have hbase : (0 : ℚ) ≤ p.backoff attempt := by exact_mod_cast (h.backoff_pos attempt).le
  have hspread : 0 ≤ p.backoff attempt * p.jitterFraction := mul_nonneg hbase h.jitterFraction
  have hlow := mul_le_mul_of_nonneg_left (show -1 ≤ 2 * drawn - 1 by linarith) hspread
  have hhigh := mul_le_mul_of_nonneg_left (show 2 * drawn - 1 ≤ 1 by linarith) hspread
  unfold jittered
  constructor <;> linarith

theorem Valid.jittered_nonneg (h : p.Valid) (attempt : ℤ) {drawn : ℚ} (h0 : 0 ≤ drawn)
    (h1 : drawn ≤ 1) : 0 ≤ p.jittered attempt drawn := by
  have hbase : (0 : ℚ) ≤ p.backoff attempt := by exact_mod_cast (h.backoff_pos attempt).le
  have hrest : 0 ≤ 1 - p.jitterFraction := sub_nonneg.mpr h.jitterFraction_le
  exact (mul_nonneg hbase hrest).trans (h.jittered_bounds attempt h0 h1).1

/-- The guard against negative intervals is never needed, and without jitter the cap holds
already. -/
theorem Valid.backoffWithJitter_eq (h : p.Valid) (attempt : ℤ) {drawn : ℚ} (h0 : 0 ≤ drawn)
    (h1 : drawn ≤ 1) : p.backoffWithJitter attempt drawn =
      min (truncate (p.jittered attempt drawn)) p.maxInterval := by
  unfold backoffWithJitter
  dsimp only
  split_ifs with hnone hneg hcap
  · have hsame : p.jittered attempt drawn = p.backoff attempt := by simp [jittered, hnone]
    rw [hsame, truncate_intCast, min_eq_left (h.backoff_le attempt)]
  · exact absurd hneg (not_lt.mpr (truncate_nonneg (h.jittered_nonneg attempt h0 h1)))
  · exact (min_eq_right (le_of_lt hcap)).symm
  · exact (min_eq_left (not_lt.mp hcap)).symm

/-! ## The schedule -/

/-- What a retry may rely on. -/
structure Scheduled (p : Policy) (now : Time) (attempt : ℤ) (drawn : ℚ) : Prop where
  positive : 0 < p.backoff attempt
  capped : p.backoff attempt ≤ p.maxInterval
  monotone : ∀ later, attempt ≤ later → p.backoff attempt ≤ p.backoff later
  value : p.backoff attempt = truncate
    (min (p.initialInterval * p.multiplier ^ (max attempt 1 - 1).toNat) p.maxInterval)
  lower : truncate (p.backoff attempt * (1 - p.jitterFraction)) ≤ p.backoffWithJitter attempt drawn
  upper : (p.backoffWithJitter attempt drawn : ℚ) ≤
    min (p.backoff attempt * (1 + p.jitterFraction)) p.maxInterval
  notBefore : now ≤ p.nextAttemptAt now attempt drawn
  notAfter : p.nextAttemptAt now attempt drawn ≤ now + p.maxInterval

theorem backoff_scheduled (p : Policy) (h : p.validate = .ok ()) (now : Time) (attempt : ℤ)
    (drawn : ℚ) (h0 : 0 ≤ drawn) (h1 : drawn ≤ 1) : p.Scheduled now attempt drawn := by
  have hv := valid_of_validate h
  obtain ⟨hlow, hhigh⟩ := hv.jittered_bounds attempt h0 h1
  have heq := hv.backoffWithJitter_eq attempt h0 h1
  have hjittered := hv.jittered_nonneg attempt h0 h1
  have hbase : (0 : ℚ) ≤ p.backoff attempt := by exact_mod_cast (hv.backoff_pos attempt).le
  have hrest : 0 ≤ 1 - p.jitterFraction := sub_nonneg.mpr hv.jitterFraction_le
  have hmax : (0 : ℤ) ≤ p.maxInterval := hv.initialInterval.le.trans hv.maxInterval
  refine ⟨hv.backoff_pos attempt, hv.backoff_le attempt, fun later => hv.backoff_mono,
    backoff_eq p attempt, ?_, ?_, ?_, ?_⟩
  · rw [heq, le_min_iff]
    have hlower := mul_nonneg hbase hrest
    refine ⟨truncate_mono hlower hlow, ?_⟩
    have hless : p.backoff attempt * (1 - p.jitterFraction) ≤ (p.backoff attempt : ℚ) :=
      mul_le_of_le_one_right hbase (by linarith [hv.jitterFraction])
    have hmono := truncate_mono hlower hless
    rw [truncate_intCast] at hmono
    exact hmono.trans (hv.backoff_le attempt)
  · rw [heq, Int.cast_min]
    exact min_le_min_right _ ((truncate_le hjittered).trans hhigh)
  · rw [nextAttemptAt, heq]
    exact le_add_of_nonneg_right (le_min (truncate_nonneg hjittered) hmax)
  · rw [nextAttemptAt, heq]
    exact add_le_add_right (min_le_right _ _) now

/-- The largest jitter of the second retry under the default policy. -/
theorem backoff_scheduled_default :
    Policy.default.validate = .ok () ∧ Policy.default.Scheduled 0 2 1 :=
  ⟨by decide +kernel, backoff_scheduled Policy.default (by decide +kernel) 0 2 1 (by norm_num)
    (by norm_num)⟩

end Policy
end RabbitmqLite.Retry
