import RabbitmqLite.Message.Message
import RabbitmqLite.Calendar.Gregorian
import RabbitmqLite.Text.FixedWidth

/-! # Timestamps as text

The SQLite driver stores an instant as text in the layout
`2006-01-02T15:04:05.000000000Z`. For the years 0 to 9999 the text is read back
as the same instant, and texts compare like instants.
-/

namespace RabbitmqLite.Storage.Sqlite
open Calendar Text

def nanosPerDay : ℤ := 86400000000000

/-- The fields of an instant in UTC. -/
structure Fields where
  date : Date
  hour : ℕ
  minute : ℕ
  second : ℕ
  nano : ℕ
  deriving DecidableEq

def Fields.ofTime (t : ℤ) : Fields :=
  let rest := (t % nanosPerDay).toNat
  ⟨Date.ofDays (t / nanosPerDay), rest / 3600000000000, rest / 60000000000 % 60,
    rest / 1000000000 % 60, rest % 1000000000⟩

def Fields.toTime (f : Fields) : ℤ :=
  f.date.toDays * nanosPerDay +
    ((f.hour * 60 + f.minute) * 60 + f.second : ℕ) * 1000000000 + (f.nano : ℕ)

/-- The fields that `time.Parse` accepts. -/
def Fields.Valid (f : Fields) : Prop :=
  f.date.Valid ∧ f.hour < 24 ∧ f.minute < 60 ∧ f.second < 60

instance (f : Fields) : Decidable f.Valid := by unfold Fields.Valid; infer_instance

/-- A year has four digits, or more and a sign if it needs them. -/
def yearText (year : ℤ) : List Char :=
  let figures := if year.natAbs < 10000 then digits 4 year.natAbs else Nat.toDigits 10 year.natAbs
  if year < 0 then '-' :: figures else figures

/-- The layout; every field but the year has a fixed width. -/
def layout (f : Fields) : List Char :=
  yearText f.date.year ++ '-' :: (digits 2 f.date.month ++ '-' :: (digits 2 f.date.day ++
    'T' :: (digits 2 f.hour ++ ':' :: (digits 2 f.minute ++ ':' :: (digits 2 f.second ++
      '.' :: (digits 9 f.nano ++ ['Z']))))))

/-- Read the fields of the layout back and check their ranges. -/
def parseLayout (input : List Char) : Option Fields := do
  let (year, input) ← field 4 '-' input
  let (month, input) ← field 2 '-' input
  let (day, input) ← field 2 'T' input
  let (hour, input) ← field 2 ':' input
  let (minute, input) ← field 2 ':' input
  let (second, input) ← field 2 '.' input
  let (nano, input) ← field 9 'Z' input
  let fields : Fields := ⟨⟨year, month, day⟩, hour, minute, second, nano⟩
  if input = [] ∧ fields.Valid then some fields else none

def formatTime (t : Time) : String := String.ofList (layout (Fields.ofTime t))

def parseTime (value : String) : Option Time :=
  if value = "" then some zeroTime else (parseLayout value.toList).map Fields.toTime

/-- The instants of the years 0 to 9999. -/
def InYears (t : ℤ) : Prop := -366 * nanosPerDay ≤ t ∧ t < 3652059 * nanosPerDay

instance (t : ℤ) : Decidable (InYears t) := by unfold InYears; infer_instance

/-! ## The fields of an instant -/

theorem Fields.toTime_ofTime (t : ℤ) : (Fields.ofTime t).toTime = t := by
  have h0 : 0 ≤ t % nanosPerDay := Int.emod_nonneg t (by norm_num [nanosPerDay])
  have hd : nanosPerDay * (t / nanosPerDay) + t % nanosPerDay = t := Int.mul_ediv_add_emod t _
  simp only [Fields.toTime, Fields.ofTime, Date.toDays_ofDays]
  generalize hr : (t % nanosPerDay).toNat = rest
  have hrest : ((rest / 3600000000000 * 60 + rest / 60000000000 % 60) * 60 +
      rest / 1000000000 % 60) * 1000000000 + rest % 1000000000 = rest := by omega
  have hcast : (rest : ℤ) = t % nanosPerDay := by omega
  have hsum : t / nanosPerDay * nanosPerDay + (rest : ℤ) = t := by
    rw [hcast, mul_comm]
    exact hd
  have hrest' := congrArg (fun n : ℕ => (n : ℤ)) hrest
  push_cast at hrest' ⊢
  linarith

theorem Fields.ofTime_valid (t : ℤ) : (Fields.ofTime t).Valid := by
  have h1 : t % nanosPerDay < 86400000000000 := Int.emod_lt_of_pos t (by norm_num [nanosPerDay])
  refine ⟨Date.ofDays_valid _, ?_, ?_, ?_⟩ <;> simp only [Fields.ofTime] <;> omega

theorem year_of_inYears {t : ℤ} (h : InYears t) :
    0 ≤ (Fields.ofTime t).date.year ∧ (Fields.ofTime t).date.year < 10000 := by
  obtain ⟨hl, hu⟩ := h
  have hdl : -366 ≤ t / nanosPerDay := Int.le_ediv_of_mul_le (by norm_num [nanosPerDay]) hl
  have hdu : t / nanosPerDay < 3652059 := Int.ediv_lt_of_lt_mul (by norm_num [nanosPerDay]) hu
  obtain ⟨hb, hb'⟩ := yearOf_bounds (t / nanosPerDay)
  change 0 ≤ yearOf (t / nanosPerDay) ∧ yearOf (t / nanosPerDay) < 10000
  constructor
  · by_contra hneg
    have hz := daysBeforeYear_lt (not_le.mp hneg)
    have h0 : daysBeforeYear 0 = -366 := by decide
    omega
  · by_contra hbig
    have hz := daysBeforeYear_lt (y := 9999) (z := yearOf (t / nanosPerDay)) (by omega)
    have h0 : daysBeforeYear (9999 + 1) = 3652059 := by decide
    omega

/-! ## Reading back -/

theorem yearText_eq {year : ℤ} (hy : 0 ≤ year) (hy' : year < 10000) :
    yearText year = digits 4 year.toNat := by
  have habs : year.natAbs = year.toNat := by omega
  rw [yearText, if_neg (not_lt.mpr hy), habs]
  exact if_pos (by omega)

theorem parseLayout_layout {f : Fields} (hv : f.Valid) (hy : 0 ≤ f.date.year)
    (hy' : f.date.year < 10000) (hd : f.date.day ≤ 31) (hn : f.nano < 1000000000) :
    parseLayout (layout f) = some f := by
  obtain ⟨-, hh, hm, hs⟩ := id hv
  have hmonth := hv.1.2.1
  have hyear : ((f.date.year.toNat : ℕ) : ℤ) = f.date.year := Int.toNat_of_nonneg hy
  simp only [parseLayout, layout, yearText_eq hy hy', Option.bind_eq_bind]
  rw [field_digits (by omega), Option.bind_some, field_digits (by omega), Option.bind_some,
    field_digits (by omega), Option.bind_some, field_digits (by omega), Option.bind_some,
    field_digits (by omega), Option.bind_some, field_digits (by omega), Option.bind_some,
    field_digits (by omega), Option.bind_some, hyear, if_pos ⟨rfl, hv⟩]

theorem nano_lt (t : ℤ) : (Fields.ofTime t).nano < 1000000000 :=
  Nat.mod_lt _ (by norm_num)

/-- An instant of the years 0 to 9999 is read back as it was written. -/
theorem parseTime_formatTime {t : ℤ} (h : InYears t) : parseTime (formatTime t) = some t := by
  obtain ⟨hy, hy'⟩ := year_of_inYears h
  have hne : formatTime t ≠ "" := by
    intro hc
    have hl := congrArg (fun s => s.toList.length) hc
    simp [formatTime, layout] at hl
  rw [parseTime, if_neg hne, formatTime, String.toList_ofList,
    parseLayout_layout (Fields.ofTime_valid t) hy hy' (Date.ofDays_day_lt _) (nano_lt t),
    Option.map_some, Fields.toTime_ofTime]

/-! ## Order -/

/-- The lexicographic order of the fields, from the year down to the nanosecond. -/
def Fields.Before (f g : Fields) : Prop :=
  f.date.year < g.date.year ∨ f.date.year = g.date.year ∧ (f.date.month < g.date.month ∨
    f.date.month = g.date.month ∧ (f.date.day < g.date.day ∨ f.date.day = g.date.day ∧
      (f.hour < g.hour ∨ f.hour = g.hour ∧ (f.minute < g.minute ∨ f.minute = g.minute ∧
        (f.second < g.second ∨ f.second = g.second ∧ f.nano < g.nano)))))

theorem layout_lt_layout {f g : Fields} (hf : f.Valid) (hg : g.Valid) (hfy : 0 ≤ f.date.year)
    (hfy' : f.date.year < 10000) (hgy : 0 ≤ g.date.year) (hgy' : g.date.year < 10000)
    (hfd : f.date.day ≤ 31) (hgd : g.date.day ≤ 31) (hfn : f.nano < 1000000000)
    (hgn : g.nano < 1000000000) : layout f < layout g ↔ f.Before g := by
  have hfm := hf.1.2.1
  have hgm := hg.1.2.1
  obtain ⟨-, hfh, hfi, hfs⟩ := id hf
  obtain ⟨-, hgh, hgi, hgs⟩ := id hg
  have hyear : f.date.year.toNat < g.date.year.toNat ↔ f.date.year < g.date.year := by omega
  have hyear' : f.date.year.toNat = g.date.year.toNat ↔ f.date.year = g.date.year := by omega
  simp only [layout, yearText_eq hfy hfy', yearText_eq hgy hgy', Fields.Before,
    List.cons_lt_cons_iff, lt_irrefl, true_and, false_or,
    field_lt_field (w := 4) (m := f.date.year.toNat) (n := g.date.year.toNat) (by omega) (by omega),
    field_lt_field (w := 2) (m := f.date.month) (n := g.date.month) (by omega) (by omega),
    field_lt_field (w := 2) (m := f.date.day) (n := g.date.day) (by omega) (by omega),
    field_lt_field (w := 2) (m := f.hour) (n := g.hour) (by omega) (by omega),
    field_lt_field (w := 2) (m := f.minute) (n := g.minute) (by omega) (by omega),
    field_lt_field (w := 2) (m := f.second) (n := g.second) (by omega) (by omega),
    field_lt_field (w := 9) (m := f.nano) (n := g.nano) (by omega) (by omega),
    hyear, hyear', and_false, or_false]

/-- The time of day compares like its hours, minutes, seconds and nanoseconds. -/
theorem clock_lt (m n : ℕ) :
    m / 3600000000000 < n / 3600000000000 ∨ m / 3600000000000 = n / 3600000000000 ∧
      (m / 60000000000 % 60 < n / 60000000000 % 60 ∨
        m / 60000000000 % 60 = n / 60000000000 % 60 ∧
          (m / 1000000000 % 60 < n / 1000000000 % 60 ∨
            m / 1000000000 % 60 = n / 1000000000 % 60 ∧ m % 1000000000 < n % 1000000000)) ↔
      m < n := by
  omega

/-- First the dates are compared, then the times of day. -/
theorem Fields.before_iff (f g : Fields) :
    f.Before g ↔
      (f.date.year < g.date.year ∨ f.date.year = g.date.year ∧ (f.date.month < g.date.month ∨
        f.date.month = g.date.month ∧ f.date.day < g.date.day)) ∨
      f.date = g.date ∧ (f.hour < g.hour ∨ f.hour = g.hour ∧ (f.minute < g.minute ∨
        f.minute = g.minute ∧ (f.second < g.second ∨ f.second = g.second ∧ f.nano < g.nano))) := by
  obtain ⟨⟨fy, fm, fd⟩, fh, fi, fs, fn⟩ := f
  obtain ⟨⟨gy, gm, gd⟩, gh, gi, gs, gn⟩ := g
  simp only [Fields.Before, Date.mk.injEq]
  generalize (fh < gh ∨ fh = gh ∧ (fi < gi ∨ fi = gi ∧ (fs < gs ∨ fs = gs ∧ fn < gn))) = clock
  tauto

theorem Fields.ofTime_before (t u : ℤ) : (Fields.ofTime t).Before (Fields.ofTime u) ↔ t < u := by
  have ht : 0 ≤ t % nanosPerDay := Int.emod_nonneg t (by norm_num [nanosPerDay])
  have hu : 0 ≤ u % nanosPerDay := Int.emod_nonneg u (by norm_num [nanosPerDay])
  have hsame : Date.ofDays (t / nanosPerDay) = Date.ofDays (u / nanosPerDay) ↔
      t / nanosPerDay = u / nanosPerDay := by
    refine ⟨fun h => ?_, fun h => by rw [h]⟩
    rw [← Date.toDays_ofDays (t / nanosPerDay), h, Date.toDays_ofDays]
  rw [Fields.before_iff]
  simp only [Fields.ofTime, Date.ofDays_lt_ofDays, clock_lt, hsame]
  have hd : nanosPerDay = 86400000000000 := rfl
  rw [hd] at ht hu ⊢
  omega

theorem formatTime_lt_formatTime {t u : ℤ} (ht : InYears t) (hu : InYears u) :
    formatTime t < formatTime u ↔ t < u := by
  obtain ⟨hty, hty'⟩ := year_of_inYears ht
  obtain ⟨huy, huy'⟩ := year_of_inYears hu
  rw [formatTime, formatTime, String.lt_iff_toList_lt, String.toList_ofList, String.toList_ofList,
    layout_lt_layout (Fields.ofTime_valid t) (Fields.ofTime_valid u) hty hty' huy huy'
      (Date.ofDays_day_lt _) (Date.ofDays_day_lt _) (nano_lt t) (nano_lt u),
    Fields.ofTime_before]

theorem formatTime_le_formatTime {t u : ℤ} (ht : InYears t) (hu : InYears u) :
    formatTime t ≤ formatTime u ↔ t ≤ u := by
  rw [← not_lt, ← not_lt, formatTime_lt_formatTime hu ht]

end RabbitmqLite.Storage.Sqlite
