import RabbitmqLite.Text.Positional
import Mathlib.Data.String.Basic

/-! # Texts as bytes

A database compares texts by the bytes of their encoding. For texts of ASCII
characters these are the characters themselves, one byte each, so that the order
of the bytes is the order of the texts.
-/

namespace RabbitmqLite.Text

/-- The bytes of a text in UTF-8. -/
def bytes (s : String) : List UInt8 := s.toUTF8.data.toList

def IsAscii (c : Char) : Prop := c.toNat < 128

instance (c : Char) : Decidable (IsAscii c) := by unfold IsAscii; infer_instance

theorem utf8EncodeChar_of_isAscii {c : Char} (h : IsAscii c) :
    String.utf8EncodeChar c = [c.toUInt8] := by
  apply String.utf8EncodeChar_eq_singleton
  rw [Char.utf8Size_eq_one_iff, UInt32.le_iff_toNat_le]
  exact Nat.le_of_lt_succ h

theorem bytes_ofList {l : List Char} (h : ∀ c ∈ l, IsAscii c) :
    bytes (String.ofList l) = l.map Char.toUInt8 := by
  have hencode : l.flatMap String.utf8EncodeChar = l.map Char.toUInt8 := by
    induction l with
    | nil => rfl
    | cons c l ih =>
      rw [List.forall_mem_cons] at h
      rw [List.flatMap_cons, utf8EncodeChar_of_isAscii h.1, ih h.2]
      rfl
  simp only [bytes, String.toUTF8, String.toByteArray_ofList, List.utf8Encode,
    List.data_toByteArray, hencode]

theorem toNat_toUInt8 {c : Char} (h : IsAscii c) : c.toUInt8.toNat = c.toNat := by
  change c.val.toUInt8.toNat = c.val.toNat
  rw [UInt32.toNat_toUInt8]
  exact Nat.mod_eq_of_lt (lt_trans h (by norm_num))

theorem toUInt8_lt_toUInt8 {c d : Char} (hc : IsAscii c) (hd : IsAscii d) :
    c.toUInt8 < d.toUInt8 ↔ c < d := by
  rw [UInt8.lt_iff_toNat_lt, toNat_toUInt8 hc, toNat_toUInt8 hd, Char.lt_def,
    UInt32.lt_iff_toNat_lt]
  rfl

theorem toUInt8_inj {c d : Char} (hc : IsAscii c) (hd : IsAscii d) :
    c.toUInt8 = d.toUInt8 ↔ c = d := by
  rw [← UInt8.toNat_inj, toNat_toUInt8 hc, toNat_toUInt8 hd, Char.toNat_inj]

/-- Texts of ASCII characters compare like their bytes. -/
theorem bytes_lt_bytes {l m : List Char} (hl : ∀ c ∈ l, IsAscii c) (hm : ∀ c ∈ m, IsAscii c) :
    bytes (String.ofList l) < bytes (String.ofList m) ↔ l < m := by
  rw [bytes_ofList hl, bytes_ofList hm]
  exact map_lt_map_iff (fun _ _ => toUInt8_lt_toUInt8) (fun _ _ => toUInt8_inj) hl hm

end RabbitmqLite.Text
