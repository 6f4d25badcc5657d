import RabbitmqLite.Text.Positional
import Mathlib.Data.String.Basic

/-! # Bytes as numbers and as hexadecimal digits

A number is written in bytes of a fixed width, the highest first, and bytes are
written as two hexadecimal digits each. Both can be read back and both keep the
order from the left.
-/

namespace RabbitmqLite.Text

/-! ## Big-endian numbers -/

/-- The last `w` bytes of a number, the highest first. -/
def bigEndian (w n : ℕ) : List UInt8 := (positional 256 w n).map UInt8.ofNat

def ofBigEndian (bytes : List UInt8) : ℕ := ofPositional 256 0 (bytes.map UInt8.toNat)

@[simp] theorem bigEndian_length (w n : ℕ) : (bigEndian w n).length = w := by
  simp [bigEndian]

theorem toNat_bigEndian (w n : ℕ) : (bigEndian w n).map UInt8.toNat = positional 256 w n := by
  have hread : ∀ d ∈ positional 256 w n, (UInt8.toNat ∘ UInt8.ofNat) d = id d := by
    intro d hd
    exact UInt8.toNat_ofNat_of_lt' (positional_lt (by norm_num) w n d hd)
  rw [bigEndian, List.map_map, List.map_congr_left hread, List.map_id]

theorem ofBigEndian_bigEndian {w n : ℕ} (h : n < 256 ^ w) : ofBigEndian (bigEndian w n) = n := by
  rw [ofBigEndian, toNat_bigEndian, ofPositional_positional, Nat.mod_eq_of_lt h, Nat.zero_mul,
    Nat.zero_add]

/-- Zeros in front do not change the number. -/
theorem ofBigEndian_zeros (k : ℕ) (bytes : List UInt8) :
    ofBigEndian (List.replicate k 0 ++ bytes) = ofBigEndian bytes := by
  induction k with
  | zero => rfl
  | succ k ih =>
    rw [List.replicate_succ, List.cons_append]
    exact ih

theorem bigEndian_lt_bigEndian {w m n : ℕ} (hm : m < 256 ^ w) (hn : n < 256 ^ w) :
    bigEndian w m < bigEndian w n ↔ m < n := by
  have hbase : 0 < 256 := by norm_num
  have hlt : ∀ a b, a < 256 → b < 256 → (UInt8.ofNat a < UInt8.ofNat b ↔ a < b) := by
    intro a b ha hb
    rw [UInt8.lt_iff_toNat_lt, UInt8.toNat_ofNat_of_lt' ha, UInt8.toNat_ofNat_of_lt' hb]
  have heq : ∀ a b, a < 256 → b < 256 → (UInt8.ofNat a = UInt8.ofNat b ↔ a = b) := by
    intro a b ha hb
    rw [← UInt8.toNat_inj, UInt8.toNat_ofNat_of_lt' ha, UInt8.toNat_ofNat_of_lt' hb]
  rw [bigEndian, bigEndian,
    map_lt_map_iff hlt heq (positional_lt hbase w m) (positional_lt hbase w n),
    positional_lt_positional hbase, Nat.mod_eq_of_lt hm, Nat.mod_eq_of_lt hn]

/-! ## Hexadecimal digits -/

def hexDigits : List Char := "0123456789abcdef".toList

def hexDigit (n : ℕ) : Char := hexDigits.getD n '0'

/-- The value of a digit in either case. -/
def hexValue (c : Char) : Option ℕ :=
  if '0' ≤ c ∧ c ≤ '9' then some (c.toNat - 48)
  else if 'a' ≤ c ∧ c ≤ 'f' then some (c.toNat - 87)
  else if 'A' ≤ c ∧ c ≤ 'F' then some (c.toNat - 55)
  else none

/-- The two digits of a byte. -/
def hexPair (x : UInt8) : List Char := [hexDigit (x.toNat / 16), hexDigit (x.toNat % 16)]

def encodeHex (bytes : List UInt8) : List Char := bytes.flatMap hexPair

/-- Read two digits a byte; a digit left over or a character that is no digit is refused. -/
def decodeHex : List Char → Option (List UInt8)
  | [] => some []
  | [_] => none
  | c :: d :: rest => do
    let high ← hexValue c
    let low ← hexValue d
    let bytes ← decodeHex rest
    return UInt8.ofNat (high * 16 + low) :: bytes

theorem hexDigit_mem {n : ℕ} (h : n < 16) : hexDigit n ∈ hexDigits := by
  have hall : ∀ n : Fin 16, hexDigit n ∈ hexDigits := by decide
  exact hall ⟨n, h⟩

theorem hexValue_hexDigit {n : ℕ} (h : n < 16) : hexValue (hexDigit n) = some n := by
  have hall : ∀ n : Fin 16, hexValue (hexDigit n) = some (n : ℕ) := by decide
  exact hall ⟨n, h⟩

theorem hexDigit_lt_hexDigit {m n : ℕ} (hm : m < 16) (hn : n < 16) :
    hexDigit m < hexDigit n ↔ m < n := by
  have hall : ∀ m n : Fin 16, hexDigit m < hexDigit n ↔ (m : ℕ) < n := by decide
  exact hall ⟨m, hm⟩ ⟨n, hn⟩

theorem hexDigit_inj {m n : ℕ} (hm : m < 16) (hn : n < 16) :
    hexDigit m = hexDigit n ↔ m = n := by
  refine ⟨fun h => ?_, fun h => by rw [h]⟩
  have hv := hexValue_hexDigit hm
  rw [h, hexValue_hexDigit hn] at hv
  exact (Option.some.inj hv).symm

theorem high_lt (x : UInt8) : x.toNat / 16 < 16 := by
  have h := x.toNat_lt
  omega

theorem low_lt (x : UInt8) : x.toNat % 16 < 16 := Nat.mod_lt _ (by norm_num)

theorem hexPair_lt_hexPair (x y : UInt8) : hexPair x < hexPair y ↔ x < y := by
  simp only [hexPair, List.cons_lt_cons_iff, hexDigit_lt_hexDigit (high_lt x) (high_lt y),
    hexDigit_inj (high_lt x) (high_lt y), hexDigit_lt_hexDigit (low_lt x) (low_lt y),
    UInt8.lt_iff_toNat_lt]
  have hnil : ¬ ([] : List Char) < [] := lt_irrefl _
  simp only [hnil, and_false, or_false]
  omega

theorem hexPair_inj (x y : UInt8) : hexPair x = hexPair y ↔ x = y := by
  refine ⟨fun h => ?_, fun h => by rw [h]⟩
  simp only [hexPair, List.cons.injEq, and_true, hexDigit_inj (high_lt x) (high_lt y),
    hexDigit_inj (low_lt x) (low_lt y)] at h
  rw [← UInt8.toNat_inj]
  omega

theorem encodeHex_length (bytes : List UInt8) :
    (encodeHex bytes).length = 2 * bytes.length := by
  induction bytes with
  | nil => rfl
  | cons x bytes ih =>
    rw [encodeHex, List.flatMap_cons, List.length_append, ← encodeHex, ih, List.length_cons]
    simp only [hexPair, List.length_cons, List.length_nil]
    ring

theorem mem_encodeHex {bytes : List UInt8} {c : Char} (h : c ∈ encodeHex bytes) :
    c ∈ hexDigits := by
  obtain ⟨x, _, hc⟩ := List.mem_flatMap.mp h
  rcases List.mem_pair.mp hc with rfl | rfl
  · exact hexDigit_mem (high_lt x)
  · exact hexDigit_mem (low_lt x)

theorem decodeHex_encodeHex (bytes : List UInt8) : decodeHex (encodeHex bytes) = some bytes := by
  induction bytes with
  | nil => rfl
  | cons x bytes ih =>
    have hx : UInt8.ofNat (x.toNat / 16 * 16 + x.toNat % 16) = x := by
      rw [Nat.div_add_mod', UInt8.ofNat_toNat]
    rw [encodeHex, List.flatMap_cons, ← encodeHex]
    simp only [hexPair, List.cons_append, List.nil_append, decodeHex,
      hexValue_hexDigit (high_lt x), hexValue_hexDigit (low_lt x), ih, Option.pure_def,
      Option.bind_eq_bind, Option.bind_some, hx]

/-- The digits of two byte strings compare like the bytes. -/
theorem encodeHex_lt_encodeHex (l m : List UInt8) : encodeHex l < encodeHex m ↔ l < m := by
  induction l generalizing m with
  | nil => cases m <;> simp [encodeHex, hexPair]
  | cons x l ih =>
    cases m with
    | nil => simp [encodeHex]
    | cons y m =>
      have hlength : (hexPair x).length = (hexPair y).length := rfl
      rw [encodeHex, encodeHex, List.flatMap_cons, List.flatMap_cons, ← encodeHex, ← encodeHex,
        append_lt_append_iff hlength, hexPair_lt_hexPair, hexPair_inj, ih, List.cons_lt_cons_iff]

end RabbitmqLite.Text
