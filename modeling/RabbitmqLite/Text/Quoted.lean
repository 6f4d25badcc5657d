import RabbitmqLite.Text.Hexadecimal

/-! # Quoted texts

A text between double quotes, in which quotes, backslashes and characters that
cannot be printed are escaped. Which characters can be printed is a table that
stays open. Behind a quoted text anything may follow: where the text ends can be
read off, and so can the text.
-/

namespace RabbitmqLite.Text

/-- The last `w` hexadecimal digits of a number. -/
def hexField (w n : ℕ) : List Char := (positional 16 w n).map hexDigit

/-- The letter that stands for a control character. -/
def escapeLetter (c : Char) : Option Char :=
  if c.toNat = 7 then some 'a'
  else if c.toNat = 8 then some 'b'
  else if c.toNat = 12 then some 'f'
  else if c.toNat = 10 then some 'n'
  else if c.toNat = 13 then some 'r'
  else if c.toNat = 9 then some 't'
  else if c.toNat = 11 then some 'v'
  else none

section Quote
variable (isPrint : Char → Bool)

def escaped (c : Char) : List Char :=
  if c = '"' ∨ c = '\\' then ['\\', c]
  else if isPrint c then [c]
  else
    match escapeLetter c with
    | some letter => ['\\', letter]
    | none =>
      if c.toNat < 32 ∨ c.toNat = 127 then '\\' :: 'x' :: hexField 2 c.toNat
      else if c.toNat < 65536 then '\\' :: 'u' :: hexField 4 c.toNat
      else '\\' :: 'U' :: hexField 8 c.toNat

def quoted (s : List Char) : List Char := '"' :: s.flatMap (escaped isPrint) ++ ['"']

end Quote

/-! ## Reading -/

/-- How many digits follow the letter behind a backslash. -/
def digitsBehind (letter : Char) : ℕ :=
  if letter = 'x' then 2 else if letter = 'u' then 4 else if letter = 'U' then 8 else 0

/-- The character a letter behind a backslash stands for, if no digits follow it. -/
def unescapeLetter (letter : Char) : Char :=
  if letter = 'a' then Char.ofNat 7
  else if letter = 'b' then Char.ofNat 8
  else if letter = 'f' then Char.ofNat 12
  else if letter = 'n' then Char.ofNat 10
  else if letter = 'r' then Char.ofNat 13
  else if letter = 't' then Char.ofNat 9
  else if letter = 'v' then Char.ofNat 11
  else letter

def readHex (digits : List Char) : ℕ :=
  ofPositional 16 0 (digits.map (fun c => (hexValue c).getD 0))

/-- Read what is behind a backslash. -/
def readBehind : List Char → Option (Char × List Char)
  | [] => none
  | letter :: rest =>
    let w := digitsBehind letter
    if w = 0 then some (unescapeLetter letter, rest)
    else some (Char.ofNat (readHex (rest.take w)), rest.drop w)

/-- Read one character and what is behind it; a quote ends the text. -/
def readEscaped : List Char → Option (Char × List Char)
  | [] => none
  | c :: rest =>
    if c = '"' then none else if c = '\\' then readBehind rest else some (c, rest)

@[simp] theorem hexField_length (w n : ℕ) : (hexField w n).length = w := by
  simp [hexField]

theorem readHex_hexField {w n : ℕ} (h : n < 16 ^ w) : readHex (hexField w n) = n := by
  have hread : ∀ d ∈ positional 16 w n, (hexValue (hexDigit d)).getD 0 = id d := by
    intro d hd
    rw [hexValue_hexDigit (positional_lt (by norm_num) w n d hd)]
    rfl
  have hdigits : (hexField w n).map (fun c => (hexValue c).getD 0) = positional 16 w n := by
    rw [hexField, List.map_map]
    exact (List.map_congr_left hread).trans (List.map_id _)
  rw [readHex, hdigits, ofPositional_positional, Nat.mod_eq_of_lt h, Nat.zero_mul, Nat.zero_add]

theorem readEscaped_digits {letter : Char} {w n : ℕ} (hw : digitsBehind letter = w) (hpos : w ≠ 0)
    (h : n < 16 ^ w) (rest : List Char) :
    readEscaped ('\\' :: letter :: hexField w n ++ rest) = some (Char.ofNat n, rest) := by
  have hlen : (hexField w n).length = w := hexField_length w n
  rw [List.cons_append, List.cons_append, readEscaped, if_neg (by decide), if_pos rfl, readBehind]
  simp only [hw, if_neg hpos]
  rw [List.take_left' hlen, List.drop_left' hlen, readHex_hexField h]

theorem readEscaped_letter {letter : Char} (hw : digitsBehind letter = 0) (rest : List Char) :
    readEscaped ('\\' :: letter :: rest) = some (unescapeLetter letter, rest) := by
  rw [readEscaped, if_neg (by decide), if_pos rfl, readBehind]
  simp only [hw, if_true]

theorem unescapeLetter_escapeLetter {c letter : Char} (h : escapeLetter c = some letter) :
    digitsBehind letter = 0 ∧ unescapeLetter letter = c := by
  have hchar : ∀ n, c.toNat = n → Char.ofNat n = c := fun n hn => by rw [← hn, Char.ofNat_toNat]
  unfold escapeLetter at h
  split_ifs at h with h7 h8 h12 h10 h13 h9 h11 <;> obtain rfl := Option.some.inj h
  · exact ⟨rfl, hchar 7 h7⟩
  · exact ⟨rfl, hchar 8 h8⟩
  · exact ⟨rfl, hchar 12 h12⟩
  · exact ⟨rfl, hchar 10 h10⟩
  · exact ⟨rfl, hchar 13 h13⟩
  · exact ⟨rfl, hchar 9 h9⟩
  · exact ⟨rfl, hchar 11 h11⟩

/-- What was written is read back, whatever follows. -/
theorem readEscaped_escaped (isPrint : Char → Bool) (c : Char) (rest : List Char) :
    readEscaped (escaped isPrint c ++ rest) = some (c, rest) := by
  rw [escaped]
  by_cases hquote : c = '"' ∨ c = '\\'
  · -- a quote or a backslash stands for itself behind a backslash
    have hself : digitsBehind c = 0 ∧ unescapeLetter c = c := by
      rcases hquote with rfl | rfl <;> exact ⟨by decide, by decide⟩
    rw [if_pos hquote]
    exact (readEscaped_letter hself.1 rest).trans (by rw [hself.2])
  rw [if_neg hquote]
  by_cases hprint : isPrint c = true
  · rw [not_or] at hquote
    rw [if_pos hprint, List.singleton_append, readEscaped, if_neg hquote.1, if_neg hquote.2]
  rw [if_neg hprint]
  cases hletter : escapeLetter c with
  | some letter =>
    obtain ⟨hdigits, hback⟩ := unescapeLetter_escapeLetter hletter
    exact (readEscaped_letter hdigits rest).trans (by rw [hback])
  | none =>
    have hsize : c.toNat < 16 ^ 8 := c.val.toNat_lt
    dsimp only
    split_ifs with hcontrol hsmall
    · rw [readEscaped_digits (by decide) (by decide) (by omega), Char.ofNat_toNat]
    · rw [readEscaped_digits (by decide) (by decide) (by omega), Char.ofNat_toNat]
    · rw [readEscaped_digits (by decide) (by decide) hsize, Char.ofNat_toNat]

theorem escaped_inj {isPrint : Char → Bool} {c d : Char} {x y : List Char}
    (h : escaped isPrint c ++ x = escaped isPrint d ++ y) : c = d ∧ x = y := by
  have hread := readEscaped_escaped isPrint c x
  rw [h, readEscaped_escaped] at hread
  exact ⟨(Prod.mk.inj (Option.some.inj hread)).1.symm, (Prod.mk.inj (Option.some.inj hread)).2.symm⟩

/-- No escaped character begins with the quote that ends a text. -/
theorem escaped_ne_quote {isPrint : Char → Bool} {c : Char} {x y : List Char} :
    escaped isPrint c ++ x ≠ '"' :: y := by
  intro h
  have hread := readEscaped_escaped isPrint c x
  rw [h, readEscaped, if_pos rfl] at hread
  cases hread

/-- A quoted text and what is behind it are read off together. -/
theorem quoted_append_inj {isPrint : Char → Bool} {s t x y : List Char}
    (h : quoted isPrint s ++ x = quoted isPrint t ++ y) : s = t ∧ x = y := by
  simp only [quoted, List.cons_append, List.append_assoc, List.cons.injEq, true_and,
    List.nil_append] at h
  induction s generalizing t with
  | nil =>
    cases t with
    | nil => exact ⟨rfl, (List.cons.inj h).2⟩
    | cons d t =>
      rw [List.flatMap_cons, List.append_assoc] at h
      exact absurd h.symm escaped_ne_quote
  | cons c s ih =>
    cases t with
    | nil =>
      rw [List.flatMap_cons, List.append_assoc] at h
      exact absurd h escaped_ne_quote
    | cons d t =>
      rw [List.flatMap_cons, List.append_assoc, List.flatMap_cons, List.append_assoc] at h
      obtain ⟨rfl, hrest⟩ := escaped_inj h
      obtain ⟨rfl, hend⟩ := ih hrest
      exact ⟨rfl, hend⟩

end RabbitmqLite.Text
