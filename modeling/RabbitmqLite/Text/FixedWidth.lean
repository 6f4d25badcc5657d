import RabbitmqLite.Text.Positional
import Mathlib.Data.String.Basic

/-! # Decimal fields of a fixed width

A number written with a fixed number of digits can be read back, and texts
built from such fields in the same layout compare like the numbers, field by
field from the left.
-/

namespace RabbitmqLite.Text

/-- The last decimal digit of a number. -/
def digit (n : ℕ) : Char := Char.ofNat (48 + n % 10)

/-- The last `w` decimal digits, the highest first. -/
def digits : ℕ → ℕ → List Char
  | 0, _ => []
  | w + 1, n => digit (n / 10 ^ w) :: digits w n

def digitValue (c : Char) : Option ℕ :=
  if 48 ≤ c.toNat ∧ c.toNat ≤ 57 then some (c.toNat - 48) else none

/-- Read `w` digits behind a number already read. -/
def numberFrom (n : ℕ) : ℕ → List Char → Option (ℕ × List Char)
  | 0, input => some (n, input)
  | _ + 1, [] => none
  | w + 1, c :: input => (digitValue c).bind (fun d => numberFrom (n * 10 + d) w input)

def number (w : ℕ) (input : List Char) : Option (ℕ × List Char) := numberFrom 0 w input

/-- Read one given character. -/
def literal (c : Char) : List Char → Option (List Char)
  | [] => none
  | x :: input => if x = c then some input else none

/-- Read a number of `w` digits and the character behind it. -/
def field (w : ℕ) (c : Char) (input : List Char) : Option (ℕ × List Char) :=
  (number w input).bind (fun read => (literal c read.2).map (fun rest => (read.1, rest)))

theorem digit_toNat (n : ℕ) : (digit n).toNat = 48 + n % 10 := by
  have h : n % 10 < 10 := Nat.mod_lt n (by norm_num)
  unfold digit
  interval_cases n % 10 <;> rfl

@[simp] theorem digitValue_digit (n : ℕ) : digitValue (digit n) = some (n % 10) := by
  have h : n % 10 < 10 := Nat.mod_lt n (by norm_num)
  simp only [digitValue, digit_toNat]
  rw [if_pos (by omega)]
  simp

theorem digit_lt_digit (m n : ℕ) : digit m < digit n ↔ m % 10 < n % 10 := by
  rw [Char.lt_def, UInt32.lt_iff_toNat_lt]
  change (digit m).toNat < (digit n).toNat ↔ _
  rw [digit_toNat, digit_toNat]
  omega

theorem digit_mod (n : ℕ) : digit (n % 10) = digit n := by
  rw [digit, Nat.mod_mod, digit]

/-- The field is the number's digits in base ten, written as characters. -/
theorem digits_eq_map (w n : ℕ) : digits w n = (positional 10 w n).map digit := by
  induction w with
  | zero => rfl
  | succ w ih => rw [digits, positional, List.map_cons, digit_mod, ih]

@[simp] theorem digits_length (w n : ℕ) : (digits w n).length = w := by
  rw [digits_eq_map, List.length_map, positional_length]

theorem numberFrom_digits (w n m : ℕ) (rest : List Char) :
    numberFrom m w (digits w n ++ rest) = some (m * 10 ^ w + n % 10 ^ w, rest) := by
  induction w generalizing m with
  | zero => simp [numberFrom, digits, Nat.mod_one]
  | succ w ih =>
    simp only [digits, List.cons_append, numberFrom, digitValue_digit, Option.bind_some, ih,
      mod_pow_succ]
    congr 2
    ring

/-- A number that fits its field is read back. -/
theorem number_digits {w n : ℕ} (h : n < 10 ^ w) (rest : List Char) :
    number w (digits w n ++ rest) = some (n, rest) := by
  rw [number, numberFrom_digits, Nat.mod_eq_of_lt h, Nat.zero_mul, Nat.zero_add]

theorem field_digits {w n : ℕ} (h : n < 10 ^ w) (c : Char) (rest : List Char) :
    field w c (digits w n ++ c :: rest) = some (n, rest) := by
  simp [field, number_digits h, literal]

/-! ## Order -/

theorem digit_inj {m n : ℕ} : digit m = digit n ↔ m % 10 = n % 10 := by
  constructor
  · intro h
    have hv := congrArg Char.toNat h
    rw [digit_toNat, digit_toNat] at hv
    omega
  · intro h
    rw [digit, h, digit]

theorem digits_lt_digits_mod (w m n : ℕ) :
    digits w m < digits w n ↔ m % 10 ^ w < n % 10 ^ w := by
  have hlt : ∀ a b, a < 10 → b < 10 → (digit a < digit b ↔ a < b) := by
    intro a b ha hb
    rw [digit_lt_digit, Nat.mod_eq_of_lt ha, Nat.mod_eq_of_lt hb]
  have heq : ∀ a b, a < 10 → b < 10 → (digit a = digit b ↔ a = b) := by
    intro a b ha hb
    rw [digit_inj, Nat.mod_eq_of_lt ha, Nat.mod_eq_of_lt hb]
  have hten : 0 < 10 := by norm_num
  rw [digits_eq_map, digits_eq_map,
    map_lt_map_iff hlt heq (positional_lt hten w m) (positional_lt hten w n),
    positional_lt_positional hten]

/-- Fields of one width compare like the numbers in them. -/
theorem digits_lt_digits {w m n : ℕ} (hm : m < 10 ^ w) (hn : n < 10 ^ w) :
    digits w m < digits w n ↔ m < n := by
  rw [digits_lt_digits_mod, Nat.mod_eq_of_lt hm, Nat.mod_eq_of_lt hn]

theorem digits_inj {w m n : ℕ} (hm : m < 10 ^ w) (hn : n < 10 ^ w) :
    digits w m = digits w n ↔ m = n := by
  refine ⟨fun h => ?_, fun h => by rw [h]⟩
  have hm' := number_digits hm []
  rw [h, number_digits hn] at hm'
  exact (congrArg Prod.fst (Option.some.inj hm')).symm

/-- A field decides the order of two texts, or else the text behind it does. -/
theorem field_lt_field {w m n : ℕ} (hm : m < 10 ^ w) (hn : n < 10 ^ w) (a b : List Char) :
    digits w m ++ a < digits w n ++ b ↔ m < n ∨ m = n ∧ a < b := by
  rw [append_lt_append_iff (by simp), digits_lt_digits hm hn, digits_inj hm hn]

end RabbitmqLite.Text
