import RabbitmqLite.Storage.Sqlite.Driver
import RabbitmqLite.Text.Bytes

/-! # Comparing stored timestamps

SQLite compares the timestamp columns byte by byte. For instants of the years 0
to 9999 the bytes compare like the instants, so the conditions and the orders of
the queries are those of the instants they were written from.
-/

namespace RabbitmqLite.Storage.Sqlite
open Calendar Text

/-- The year of an instant in UTC. -/
def yearOfTime (t : Time) : ℤ := (Fields.ofTime t).date.year

theorem inYears_iff (t : ℤ) : InYears t ↔ 0 ≤ yearOfTime t ∧ yearOfTime t ≤ 9999 := by
  constructor
  · intro h
    obtain ⟨hlow, hhigh⟩ := year_of_inYears h
    exact ⟨hlow, Int.lt_add_one_iff.mp hhigh⟩
  · rintro ⟨hlow, hhigh⟩
    change 0 ≤ yearOf (t / nanosPerDay) at hlow
    change yearOf (t / nanosPerDay) ≤ 9999 at hhigh
    obtain ⟨hfirst, hlast⟩ := yearOf_bounds (t / nanosPerDay)
    -- The years between are whole, so the bounds of the first and the last one hold for all.
    have hfrom : -366 ≤ t / nanosPerDay := by
      have hmono := daysBeforeYear_lt (y := -1) (z := yearOf (t / nanosPerDay)) (by omega)
      have hzero : daysBeforeYear (-1 + 1) = -366 := by decide
      omega
    have hto : t / nanosPerDay < 3652059 := by
      have hmono := daysBeforeYear_lt (y := yearOf (t / nanosPerDay)) (z := 10000) (by omega)
      have hend : daysBeforeYear 10000 = 3652059 := by decide
      omega
    refine ⟨?_, Int.lt_mul_of_ediv_lt (by decide) hto⟩
    exact (Int.le_ediv_iff_mul_le (by decide)).mp hfrom

/-! ## Bytes -/

theorem isAscii_digits (w n : ℕ) : ∀ c ∈ digits w n, IsAscii c := by
  induction w with
  | zero => simp [digits]
  | succ w ih =>
    rw [digits, List.forall_mem_cons]
    refine ⟨?_, ih⟩
    rw [IsAscii, digit_toNat]
    omega

theorem isAscii_layout {f : Fields} (hy : 0 ≤ f.date.year) (hy' : f.date.year < 10000) :
    ∀ c ∈ layout f, IsAscii c := by
  have hfield : ∀ (w n : ℕ) (c : Char) (rest : List Char), IsAscii c → (∀ d ∈ rest, IsAscii d) →
      ∀ d ∈ digits w n ++ c :: rest, IsAscii d := by
    intro w n c rest hc hrest d hd
    rcases List.mem_append.mp hd with hd | hd
    · exact isAscii_digits w n d hd
    · exact List.forall_mem_cons.mpr ⟨hc, hrest⟩ d hd
  rw [layout, yearText_eq hy hy']
  refine hfield _ _ _ _ (by decide) (hfield _ _ _ _ (by decide) (hfield _ _ _ _ (by decide)
    (hfield _ _ _ _ (by decide) (hfield _ _ _ _ (by decide) (hfield _ _ _ _ (by decide)
      (hfield _ _ _ _ (by decide) (by simp)))))))

theorem bytes_formatTime_lt {a b : Time} (ha : InYears a) (hb : InYears b) :
    bytes (formatTime a) < bytes (formatTime b) ↔ a < b := by
  obtain ⟨hay, hay'⟩ := year_of_inYears ha
  obtain ⟨hby, hby'⟩ := year_of_inYears hb
  rw [← formatTime_lt_formatTime ha hb, formatTime, formatTime,
    bytes_lt_bytes (isAscii_layout hay hay') (isAscii_layout hby hby'), String.lt_iff_toList_lt,
    String.toList_ofList, String.toList_ofList]

theorem formatTime_inj {a b : Time} (ha : InYears a) (hb : InYears b) :
    formatTime a = formatTime b ↔ a = b := by
  refine ⟨fun h => ?_, fun h => by rw [h]⟩
  have hread := parseTime_formatTime ha
  rw [h, parseTime_formatTime hb] at hread
  exact (Option.some.inj hread).symm

/-! ## Queries -/

/-- What the driver relies on for two instants: the text is read back, and every comparison of
the queries is one of the instants behind the columns. -/
structure ComparesLikeTimes (a b : Time) : Prop where
  readBack : parseTime (formatTime a) = some a
  ordered : bytes (formatTime a) ≤ bytes (formatTime b) ↔ a ≤ b
  ready : ∀ (req : ClaimRequest) (row : Row), row.availableAt = formatTime a → req.now = b →
    (Db.ready req row = true ↔
      row.queue = req.queue ∧ (row.state = .queued ∨ row.state = .retrying) ∧ a ≤ b)
  leaseEnded : ∀ row : Row, row.leaseExpiresAt = some (formatTime a) →
    (Db.leaseEnded b row = true ↔ row.state = .processing ∧ a ≤ b)
  delivered : ∀ row row' : Row, row.availableAt = formatTime a → row'.availableAt = formatTime b →
    (deliveredBefore row row' ↔ a < b ∨ a = b ∧ row.seq ≤ row'.seq)
  listed : ∀ row row' : DeadLetterRow, row.deadLetteredAt = formatTime a →
    row'.deadLetteredAt = formatTime b → (listedFirst row row' ↔ b < a ∨ a = b ∧ row'.id ≤ row.id)

theorem formatTime_compares (a b : Time) (ha : 0 ≤ yearOfTime a ∧ yearOfTime a ≤ 9999)
    (hb : 0 ≤ yearOfTime b ∧ yearOfTime b ≤ 9999) : ComparesLikeTimes a b := by
  rw [← inYears_iff] at ha hb
  refine ⟨parseTime_formatTime ha, ?_, fun req row hrow hnow => ?_, fun row hrow => ?_,
    fun row row' hrow hrow' => ?_, fun row row' hrow hrow' => ?_⟩
  · change ¬ bytes (formatTime b) < bytes (formatTime a) ↔ a ≤ b
    rw [bytes_formatTime_lt hb ha, not_lt]
  · rw [Db.ready, hrow, hnow, Bool.and_eq_true, Bool.and_eq_true, decide_eq_true_eq,
      decide_eq_true_eq, decide_eq_true_eq, formatTime_le_formatTime ha hb, and_assoc]
  · rw [Db.leaseEnded, hrow, Bool.and_eq_true, decide_eq_true_eq, decide_eq_true_eq,
      formatTime_le_formatTime ha hb]
  · rw [deliveredBefore, hrow, hrow', formatTime_lt_formatTime ha hb, formatTime_inj ha hb]
  · rw [listedFirst, hrow, hrow', formatTime_lt_formatTime hb ha, formatTime_inj ha hb]

/-- The last nanosecond of a leap day and the first of the day behind it. -/
theorem formatTime_compares_leapDay :
    yearOfTime 63844847999999999999 = 2024 ∧
      ComparesLikeTimes 63844847999999999999 63844848000000000000 :=
  ⟨by decide +kernel, formatTime_compares _ _ (by decide +kernel) (by decide +kernel)⟩

end RabbitmqLite.Storage.Sqlite
