import RabbitmqLite.Message.Message
import RabbitmqLite.Text.Hexadecimal

/-! # Message identifiers

An identifier is sixteen bytes in hexadecimal: the last six bytes of the Unix
milliseconds and ten bytes from a source of entropy. Whatever that source
delivers, the instant can be read back to the millisecond and identifiers of
different milliseconds are ordered like the instants.
-/

namespace RabbitmqLite.Identifier
open Text

def timestampBytes : ℕ := 6
def randomBytes : ℕ := 10
def idBytes : ℕ := timestampBytes + randomBytes

/-! ## Instants and machine words -/

/-- 1970-01-01, which is 719162 days after the zero instant. -/
def unixEpoch : Time := 719162 * 86400 * second

def unixMilli (t : Time) : ℤ := (t - unixEpoch) / millisecond

def unixNano (t : Time) : ℤ := t - unixEpoch

def ofUnixMilli (ms : ℤ) : Time := unixEpoch + ms * millisecond

def uint64 (n : ℤ) : ℕ := (n % 2 ^ 64).toNat

def int64 (n : ℕ) : ℤ := if n < 2 ^ 63 then n else n - 2 ^ 64

/-! ## Buffers and readers -/

/-- `copy(buffer[start:], written)`: what does not fit is left out. -/
def copyAt (buffer : List UInt8) (start : ℕ) (written : List UInt8) : List UInt8 :=
  buffer.take start ++ written.take (buffer.length - start) ++
    buffer.drop (start + written.length)

/-- One answer of an `io.Reader`: what it leaves in the buffer, which may be more than it
counts, the bytes it counts, and whether an error comes with them. -/
structure Read where
  written : List UInt8
  count : ℕ
  failed : Bool
  deriving DecidableEq

/-- The loop of `io.ReadFull`, with `n` bytes of the buffer read so far: the buffer it leaves
and whether it returns an error. A reader without a further answer is at its end. -/
def readLoop : List Read → List UInt8 → ℕ → List UInt8 × Bool
  | [], buffer, n => (buffer, decide (n < buffer.length))
  | read :: reads, buffer, n =>
    if buffer.length ≤ n then (buffer, false)
    else
      let filled := copyAt buffer n read.written
      if read.failed then (filled, decide (n + read.count < buffer.length))
      else readLoop reads filled (n + read.count)

def readFull (entropy : List Read) (buffer : List UInt8) : List UInt8 × Bool :=
  readLoop entropy buffer 0

/-! ## Writing and reading identifiers -/

def newIDAt (t : Time) (entropy : List Read) : String :=
  let raw := List.replicate idBytes 0
  let stamp := bigEndian 8 (uint64 (unixMilli t))
  let raw := copyAt raw 0 (stamp.drop (8 - timestampBytes))
  let random := readFull entropy (raw.drop timestampBytes)
  let raw := raw.take timestampBytes ++ random.1
  -- the fallback covers eight of the ten bytes; the last two stay as the reader left them
  let raw := if random.2 then copyAt raw timestampBytes (bigEndian 8 (uint64 (unixNano t)))
    else raw
  String.ofList (encodeHex raw)

def timestampOf (id : String) : Option Time := do
  let raw ← decodeHex id.toList
  if raw.length ≠ idBytes then none
  else
    let stamp := copyAt (List.replicate 8 0) (8 - timestampBytes) (raw.take timestampBytes)
    some (ofUnixMilli (int64 (ofBigEndian stamp)))

/-! ## The layout of an identifier -/

theorem copyAt_length (buffer : List UInt8) (start : ℕ) (written : List UInt8) :
    (copyAt buffer start written).length = buffer.length := by
  simp only [copyAt, List.length_append, List.length_take, List.length_drop]
  omega

/-- A copy behind the first part of a buffer stays behind it. -/
theorem copyAt_append (a b written : List UInt8) :
    copyAt (a ++ b) a.length written = a ++ copyAt b 0 written := by
  simp [copyAt, List.drop_append]

theorem readLoop_length (reads : List Read) (buffer : List UInt8) (n : ℕ) :
    (readLoop reads buffer n).1.length = buffer.length := by
  induction reads generalizing buffer n with
  | nil => rfl
  | cons read reads ih =>
    rw [readLoop]
    split_ifs with hfull hfailed
    · rfl
    · exact copyAt_length buffer n read.written
    · rw [ih, copyAt_length]

/-- Every identifier is the timestamp and ten more bytes: neither the reader nor the fallback
reaches the timestamp. -/
theorem newIDAt_layout (t : Time) (entropy : List Read) :
    ∃ random : List UInt8, random.length = randomBytes ∧ newIDAt t entropy =
      String.ofList (encodeHex (bigEndian 6 (uint64 (unixMilli t)) ++ random)) := by
  set stamp := bigEndian 6 (uint64 (unixMilli t)) with hstamp
  have hsix : timestampBytes = stamp.length := (bigEndian_length 6 _).symm
  have hraw : copyAt (List.replicate idBytes 0) 0 stamp =
      stamp ++ List.replicate randomBytes 0 := by
    simp [copyAt, hstamp, idBytes, timestampBytes, randomBytes]
  have hread : (readFull entropy (List.replicate randomBytes 0)).1.length = randomBytes := by
    rw [readFull, readLoop_length, List.length_replicate]
  have hdrop : (bigEndian 8 (uint64 (unixMilli t))).drop (8 - timestampBytes) = stamp := rfl
  simp only [newIDAt, hdrop, hraw]
  simp only [hsix, List.take_left, List.drop_left, copyAt_append]
  cases (readFull entropy (List.replicate randomBytes 0)).2 with
  | false => exact ⟨_, hread, rfl⟩
  | true => exact ⟨_, (copyAt_length _ _ _).trans hread, rfl⟩

/-! ## The timestamp and the order -/

/-- The milliseconds that fit the timestamp. -/
def Stampable (t : Time) : Prop := 0 ≤ unixMilli t ∧ unixMilli t < 2 ^ 48

instance (t : Time) : Decidable (Stampable t) := by unfold Stampable; infer_instance

theorem uint64_of_stampable {t : Time} (h : Stampable t) :
    (uint64 (unixMilli t) : ℤ) = unixMilli t ∧ uint64 (unixMilli t) < 256 ^ 6 := by
  obtain ⟨hlow, hhigh⟩ := h
  have hmod : unixMilli t % 2 ^ 64 = unixMilli t := Int.emod_eq_of_lt hlow (by linarith)
  rw [uint64, hmod]
  refine ⟨Int.toNat_of_nonneg hlow, ?_⟩
  norm_num at hhigh ⊢
  omega

/-- Whole milliseconds since the epoch are whole milliseconds since the zero instant. -/
theorem ofUnixMilli_unixMilli (t : ℤ) : ofUnixMilli (unixMilli t) = t - t % millisecond := by
  change (719162 * 86400 * (1000 * 1000000) +
    (t - 719162 * 86400 * (1000 * 1000000)) / 1000000 * 1000000 : ℤ) = t - t % 1000000
  omega

theorem timestampOf_layout {n : ℕ} (hn : n < 256 ^ 6) {random : List UInt8}
    (hr : random.length = randomBytes) :
    timestampOf (String.ofList (encodeHex (bigEndian 6 n ++ random))) = some (ofUnixMilli n) := by
  have hlength : (bigEndian 6 n ++ random).length = idBytes := by
    rw [List.length_append, bigEndian_length, hr]
    rfl
  have htake : (bigEndian 6 n ++ random).take timestampBytes = bigEndian 6 n :=
    List.take_left' (bigEndian_length 6 n)
  have hstamp : copyAt (List.replicate 8 0) (8 - timestampBytes) (bigEndian 6 n) =
      List.replicate 2 0 ++ bigEndian 6 n := by
    simp [copyAt, timestampBytes]
  have hint : int64 n = n := if_pos (hn.trans (by norm_num))
  rw [timestampOf, String.toList_ofList, decodeHex_encodeHex]
  simp only [Option.bind_eq_bind, Option.bind_some, hlength, ne_eq, not_true_eq_false, if_false,
    htake, hstamp, ofBigEndian_zeros, ofBigEndian_bigEndian hn, hint]

/-- An identifier is 32 digits in lower case from which the millisecond can be read. -/
structure EncodesTime (t : Time) (id : String) : Prop where
  length : id.length = 32
  digits : ∀ c ∈ id.toList, c ∈ hexDigits
  timestamp : timestampOf id = some (t - t % millisecond)

theorem encodesTime_newIDAt {t : Time} (h : Stampable t) (entropy : List Read) :
    EncodesTime t (newIDAt t entropy) := by
  obtain ⟨random, hr, hid⟩ := newIDAt_layout t entropy
  obtain ⟨hmillis, hfits⟩ := uint64_of_stampable h
  refine ⟨?_, ?_, ?_⟩
  · rw [hid, String.length_ofList, encodeHex_length, List.length_append, bigEndian_length, hr]
    rfl
  · intro c hc
    rw [hid, String.toList_ofList] at hc
    exact mem_encodeHex hc
  · rw [hid, timestampOf_layout hfits hr, hmillis, ofUnixMilli_unixMilli]

theorem newIDAt_lt_newIDAt {t t' : Time} (h : Stampable t) (h' : Stampable t')
    (entropy entropy' : List Read) (hlt : unixMilli t < unixMilli t') :
    newIDAt t entropy < newIDAt t' entropy' := by
  obtain ⟨random, _, hid⟩ := newIDAt_layout t entropy
  obtain ⟨random', _, hid'⟩ := newIDAt_layout t' entropy'
  obtain ⟨hmillis, hfits⟩ := uint64_of_stampable h
  obtain ⟨hmillis', hfits'⟩ := uint64_of_stampable h'
  have hstamps : uint64 (unixMilli t) < uint64 (unixMilli t') := by omega
  have hlength : (bigEndian 6 (uint64 (unixMilli t))).length =
      (bigEndian 6 (uint64 (unixMilli t'))).length := by
    rw [bigEndian_length, bigEndian_length]
  rw [hid, hid', String.lt_iff_toList_lt, String.toList_ofList, String.toList_ofList,
    encodeHex_lt_encodeHex, append_lt_append_iff hlength]
  exact Or.inl ((bigEndian_lt_bigEndian hfits hfits').mpr hstamps)

/-- Identifiers encode and order time, whatever the readers deliver. -/
theorem newIDAt_encodes_time (t t' : Time) (h : Stampable t) (h' : Stampable t')
    (entropy entropy' : List Read) :
    EncodesTime t (newIDAt t entropy) ∧
      (unixMilli t < unixMilli t' → newIDAt t entropy < newIDAt t' entropy') :=
  ⟨encodesTime_newIDAt h entropy, newIDAt_lt_newIDAt h h' entropy entropy'⟩

/-- The first reader fails after three bytes, the second has none. -/
theorem newIDAt_encodes_time_nextMillisecond :
    EncodesTime (unixEpoch + 1999999)
        (newIDAt (unixEpoch + 1999999) [⟨[255, 255, 255], 2, false⟩, ⟨[7], 1, true⟩]) ∧
      newIDAt (unixEpoch + 1999999) [⟨[255, 255, 255], 2, false⟩, ⟨[7], 1, true⟩] <
        newIDAt (unixEpoch + 2000000) [] := by
  have h := newIDAt_encodes_time (unixEpoch + 1999999) (unixEpoch + 2000000) (by decide)
    (by decide) [⟨[255, 255, 255], 2, false⟩, ⟨[7], 1, true⟩] []
  exact ⟨h.1, h.2 (by decide)⟩

example : newIDAt (unixEpoch + 1999999) [⟨[255, 255, 255], 2, false⟩, ⟨[7], 1, true⟩] =
    "00000000000100000000001e847f0000" := by decide +kernel

end RabbitmqLite.Identifier
