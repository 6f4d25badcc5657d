import Mathlib.Data.List.Lex
import Mathlib.Tactic

/-! # The proleptic Gregorian calendar

Days are counted from the first of January of the year one. A day is located
in its year by the cycles of 400, 100 and 4 years, and in its month by walking
the lengths of the months. Both steps keep the order of days.
-/

namespace RabbitmqLite.Calendar

/-! ## Blocks of given lengths -/

/-- The block a position falls into and its offset there. -/
def locate : List ℕ → ℕ → ℕ × ℕ
  | [], d => (0, d)
  | len :: lens, d =>
    if d < len then (0, d) else ((locate lens (d - len)).1 + 1, (locate lens (d - len)).2)

/-- The position of an offset in a block. -/
def position (lens : List ℕ) (block offset : ℕ) : ℕ := (lens.take block).sum + offset

theorem position_locate (lens : List ℕ) (d : ℕ) :
    position lens (locate lens d).1 (locate lens d).2 = d := by
  induction lens generalizing d with
  | nil => simp [locate, position]
  | cons len lens ih =>
    unfold locate
    split_ifs with h
    · simp [position]
    · have hd := ih (d - len)
      simp only [position, List.take_succ_cons, List.sum_cons] at hd ⊢
      omega

theorem locate_bounds {lens : List ℕ} {d : ℕ} (h : d < lens.sum) :
    (locate lens d).1 < lens.length ∧ (locate lens d).2 < lens.getD (locate lens d).1 0 := by
  induction lens generalizing d with
  | nil => simp at h
  | cons len lens ih =>
    unfold locate
    split_ifs with hd
    · simpa using hd
    · have hlt : d - len < lens.sum := by
        simp only [List.sum_cons] at h
        omega
      simpa using ih hlt

/-- Positions compare like their blocks, and within a block like their offsets. -/
theorem locate_lt_locate (lens : List ℕ) (d e : ℕ) :
    (locate lens d).1 < (locate lens e).1 ∨
      (locate lens d).1 = (locate lens e).1 ∧ (locate lens d).2 < (locate lens e).2 ↔ d < e := by
  induction lens generalizing d e with
  | nil => simp [locate]
  | cons len lens ih =>
    have h := ih (d - len) (e - len)
    by_cases hd : d < len <;> by_cases he : e < len <;>
      simp only [locate, hd, he, if_true, if_false]
    · simp
    · simp only [Nat.zero_lt_succ, true_or, true_iff]
      omega
    · simp only [Nat.not_lt_zero, Nat.add_one_ne_zero, false_and, or_self, false_iff]
      omega
    · simp only [Nat.add_lt_add_iff_right, Nat.add_right_cancel_iff, h]
      omega

/-! ## Years -/

def isLeap (year : ℤ) : Bool :=
  decide (year % 4 = 0) && (decide (year % 100 ≠ 0) || decide (year % 400 = 0))

def yearLength (year : ℤ) : ℤ := if isLeap year then 366 else 365

/-- The number of days before the first of January of a year. -/
def daysBeforeYear (year : ℤ) : ℤ :=
  365 * (year - 1) + (year - 1) / 4 - (year - 1) / 100 + (year - 1) / 400

/-- The full centuries, four-year cycles and years within a cycle of 400 years. -/
def centuries (days : ℤ) : ℤ := min (days % 146097 / 36524) 3

def leapCycles (days : ℤ) : ℤ := (days % 146097 - 36524 * centuries days) / 1461

def cycleYears (days : ℤ) : ℤ :=
  min ((days % 146097 - 36524 * centuries days - 1461 * leapCycles days) / 365) 3

def yearOf (days : ℤ) : ℤ :=
  400 * (days / 146097) + 100 * centuries days + 4 * leapCycles days + cycleYears days + 1

theorem yearLength_eq (year : ℤ) :
    yearLength year = daysBeforeYear (year + 1) - daysBeforeYear year := by
  simp only [yearLength, daysBeforeYear, isLeap, Bool.and_eq_true, Bool.or_eq_true,
    decide_eq_true_eq]
  split_ifs <;> omega

theorem daysBeforeYear_lt {y z : ℤ} (h : y < z) : daysBeforeYear (y + 1) ≤ daysBeforeYear z := by
  simp only [daysBeforeYear]
  omega

/-- The day of the year. -/
def dayOfYear (days : ℤ) : ℤ :=
  days % 146097 - 36524 * centuries days - 1461 * leapCycles days - 365 * cycleYears days

theorem centuries_bounds (days : ℤ) :
    0 ≤ centuries days ∧ centuries days ≤ 3 ∧ 0 ≤ days % 146097 - 36524 * centuries days ∧
      (days % 146097 - 36524 * centuries days < 36524 ∨
        centuries days = 3 ∧ days % 146097 - 36524 * centuries days ≤ 36524) := by
  have h0 : 0 ≤ days % 146097 := Int.emod_nonneg days (by norm_num)
  have h1 : days % 146097 < 146097 := Int.emod_lt_of_pos days (by norm_num)
  unfold centuries
  omega

theorem leapCycles_bounds (days : ℤ) :
    0 ≤ leapCycles days ∧ leapCycles days ≤ 24 ∧
      0 ≤ days % 146097 - 36524 * centuries days - 1461 * leapCycles days ∧
      (days % 146097 - 36524 * centuries days - 1461 * leapCycles days < 1460 ∨
        days % 146097 - 36524 * centuries days - 1461 * leapCycles days = 1460 ∧
          (leapCycles days < 24 ∨ centuries days = 3)) := by
  have h := centuries_bounds days
  unfold leapCycles
  omega

/-- A 366th day exists only at the end of a four-year cycle that is not cut short. -/
theorem dayOfYear_bounds (days : ℤ) :
    0 ≤ cycleYears days ∧ cycleYears days ≤ 3 ∧ 0 ≤ dayOfYear days ∧
      (dayOfYear days < 365 ∨ dayOfYear days = 365 ∧ cycleYears days = 3 ∧
        (leapCycles days < 24 ∨ centuries days = 3)) := by
  have h := (leapCycles_bounds days).2.2
  unfold dayOfYear cycleYears
  omega

theorem daysBeforeYear_yearOf (days : ℤ) :
    daysBeforeYear (yearOf days) = days - dayOfYear days := by
  have hc := centuries_bounds days
  have hl := leapCycles_bounds days
  have hy := dayOfYear_bounds days
  have h4 : (yearOf days - 1) / 4 =
      100 * (days / 146097) + 25 * centuries days + leapCycles days := by
    unfold yearOf
    omega
  have h100 : (yearOf days - 1) / 100 = 4 * (days / 146097) + centuries days := by
    unfold yearOf
    omega
  have h400 : (yearOf days - 1) / 400 = days / 146097 := by
    unfold yearOf
    omega
  have hd : 146097 * (days / 146097) + days % 146097 = days := Int.mul_ediv_add_emod days _
  rw [daysBeforeYear, h4, h100, h400, yearOf, dayOfYear]
  linarith

theorem dayOfYear_lt (days : ℤ) : dayOfYear days < yearLength (yearOf days) := by
  obtain ⟨-, -, -, h | ⟨h, h3, hcut⟩⟩ := dayOfYear_bounds days
  · unfold yearLength
    split_ifs <;> omega
  · have hl := leapCycles_bounds days
    have hleap : isLeap (yearOf days) = true := by
      simp only [isLeap, Bool.and_eq_true, Bool.or_eq_true, decide_eq_true_eq, yearOf, h3]
      omega
    rw [yearLength, if_pos hleap, h]
    norm_num

/-- Every day falls into the year computed for it. -/
theorem yearOf_bounds (days : ℤ) :
    daysBeforeYear (yearOf days) ≤ days ∧ days < daysBeforeYear (yearOf days + 1) := by
  have hb := daysBeforeYear_yearOf days
  have h0 := (dayOfYear_bounds days).2.2.1
  have hlt := dayOfYear_lt days
  rw [yearLength_eq] at hlt
  omega

/-- Days compare like their years, and within a year like the day of the year. -/
theorem day_lt_day (d e : ℤ) :
    yearOf d < yearOf e ∨ yearOf d = yearOf e ∧
      d - daysBeforeYear (yearOf d) < e - daysBeforeYear (yearOf e) ↔ d < e := by
  obtain ⟨hd, hd'⟩ := yearOf_bounds d
  obtain ⟨he, he'⟩ := yearOf_bounds e
  rcases lt_trichotomy (yearOf d) (yearOf e) with h | h | h
  · have hy := daysBeforeYear_lt h
    simp only [h, true_or, true_iff]
    omega
  · rw [h]
    omega
  · have hy := daysBeforeYear_lt h
    omega

/-! ## Dates -/

structure Date where
  year : ℤ
  month : ℕ
  day : ℕ
  deriving DecidableEq, Repr

def monthLengths (leap : Bool) : List ℕ :=
  [31, if leap then 29 else 28, 31, 30, 31, 30, 31, 31, 30, 31, 30, 31]

def daysIn (year : ℤ) (month : ℕ) : ℕ := (monthLengths (isLeap year)).getD (month - 1) 0

/-- The date of a day. -/
def Date.ofDays (days : ℤ) : Date :=
  let year := yearOf days
  let place := locate (monthLengths (isLeap year)) (days - daysBeforeYear year).toNat
  ⟨year, place.1 + 1, place.2 + 1⟩

/-- The day of a date. -/
def Date.toDays (date : Date) : ℤ :=
  daysBeforeYear date.year +
    position (monthLengths (isLeap date.year)) (date.month - 1) (date.day - 1)

/-- The months and days that exist. -/
def Date.Valid (date : Date) : Prop :=
  1 ≤ date.month ∧ date.month ≤ 12 ∧ 1 ≤ date.day ∧ date.day ≤ daysIn date.year date.month

instance (date : Date) : Decidable date.Valid := by unfold Date.Valid; infer_instance

theorem sum_monthLengths (year : ℤ) : ((monthLengths (isLeap year)).sum : ℤ) = yearLength year := by
  unfold yearLength
  cases isLeap year <;> rfl

theorem Date.toDays_ofDays (days : ℤ) : (Date.ofDays days).toDays = days := by
  obtain ⟨h, -⟩ := yearOf_bounds days
  simp only [Date.toDays, Date.ofDays, Nat.add_sub_cancel, position_locate]
  omega

theorem Date.ofDays_valid (days : ℤ) : (Date.ofDays days).Valid := by
  obtain ⟨h, h'⟩ := yearOf_bounds days
  have hsum := sum_monthLengths (yearOf days)
  rw [yearLength_eq] at hsum
  have hlt : (days - daysBeforeYear (yearOf days)).toNat <
      (monthLengths (isLeap (yearOf days))).sum := by
    omega
  obtain ⟨hm, hd⟩ := locate_bounds hlt
  have hlen : (monthLengths (isLeap (yearOf days))).length = 12 := rfl
  refine ⟨Nat.le_add_left 1 _, ?_, Nat.le_add_left 1 _, ?_⟩
  · exact hlen ▸ hm
  · exact hd

theorem Date.ofDays_day_lt (days : ℤ) : (Date.ofDays days).day ≤ 31 := by
  obtain ⟨-, hm, -, hd⟩ := Date.ofDays_valid days
  have h31 : ∀ year month, daysIn year month ≤ 31 := by
    intro year month
    unfold daysIn monthLengths
    rcases month with _ | _ | _ | _ | _ | _ | _ | _ | _ | _ | _ | _ | _ | m <;>
      cases isLeap year <;> simp
  exact hd.trans (h31 _ _)

/-- Days compare like their dates, by year, month and day. -/
theorem Date.ofDays_lt_ofDays (d e : ℤ) :
    (Date.ofDays d).year < (Date.ofDays e).year ∨
      (Date.ofDays d).year = (Date.ofDays e).year ∧
        ((Date.ofDays d).month < (Date.ofDays e).month ∨
          (Date.ofDays d).month = (Date.ofDays e).month ∧
            (Date.ofDays d).day < (Date.ofDays e).day) ↔ d < e := by
  rw [← day_lt_day d e]
  obtain ⟨hd, -⟩ := yearOf_bounds d
  obtain ⟨he, -⟩ := yearOf_bounds e
  have hyear : ∀ days, (Date.ofDays days).year = yearOf days := fun _ => rfl
  rw [hyear, hyear]
  by_cases hy : yearOf d = yearOf e
  · have hl := locate_lt_locate (monthLengths (isLeap (yearOf e)))
      (d - daysBeforeYear (yearOf e)).toNat (e - daysBeforeYear (yearOf e)).toNat
    simp only [Date.ofDays, hy, lt_irrefl, true_and, false_or, Nat.add_lt_add_iff_right,
      Nat.add_right_cancel_iff, hl]
    rw [hy] at hd
    omega
  · simp only [hy, false_and, or_false]

end RabbitmqLite.Calendar
