import QuickjsDart.Codec.Utf
import QuickjsDart.Codec.Numeral

/-!
# JSON texts

JSON values, their text, and a parser. Text is a list of code points and a JSON string a list of
UTF-16 code units: the writer escapes an unpaired surrogate, so the text of any value is made of
characters, and the parser undoes it.

`Json.parse_write` is the round trip. `Json.scalar_of_mem_write` and `Json.head?_write` are what a
transport needs to know about the text: it is well formed, has no `U+0000`, and does not start with
white space or a byte-order mark.
-/

namespace Codec

/-- A JSON value. The members of an object are kept in order, repeated names included. -/
inductive Json where
  | null
  | bool (b : Bool)
  | num (x : Numeral)
  | str (s : Utf16)
  | arr (elems : List Json)
  | obj (members : List (Utf16 × Json))

namespace Json

/-! ## Strings -/

/-- A hexadecimal digit, in lower case. -/
def hexDigit (d : ℕ) : ℕ := if d < 10 then d + 0x30 else d + 0x57

/-- The value of a hexadecimal digit, in either case. -/
def hexVal (c : ℕ) : Option ℕ :=
  if 0x30 ≤ c ∧ c < 0x3A then some (c - 0x30)
  else if 0x61 ≤ c ∧ c < 0x67 then some (c - 0x57)
  else if 0x41 ≤ c ∧ c < 0x47 then some (c - 0x37)
  else none

/-- The letter that stands for a character after a backslash, for those that have one. -/
def shortEscape (c : ℕ) : Option ℕ :=
  if c = 0x09 then some 0x74
  else if c = 0x0D then some 0x72
  else if c = 0x0A then some 0x6E
  else if c = 0x08 then some 0x62
  else if c = 0x0C then some 0x66
  else if c = 0x22 then some 0x22
  else if c = 0x5C then some 0x5C
  else none

/-- A character inside a quoted string: controls and unpaired surrogates are escaped. -/
def escape (c : ℕ) : List ℕ :=
  match shortEscape c with
  | some e => [0x5C, e]
  | none =>
    if c < 0x20 ∨ Surrogate c then
      [0x5C, 0x75, hexDigit (c / 0x1000 % 0x10), hexDigit (c / 0x100 % 0x10),
        hexDigit (c / 0x10 % 0x10), hexDigit (c % 0x10)]
    else [c]

/-- A quoted string. -/
def quote (s : Utf16) : List ℕ := 0x22 :: ((codePoints s).flatMap escape ++ [0x22])

/-- The character a letter after a backslash stands for. -/
def unescape (e : ℕ) : Option ℕ :=
  if e = 0x74 then some 0x09
  else if e = 0x72 then some 0x0D
  else if e = 0x6E then some 0x0A
  else if e = 0x62 then some 0x08
  else if e = 0x66 then some 0x0C
  else if e = 0x22 then some 0x22
  else if e = 0x5C then some 0x5C
  else if e = 0x2F then some 0x2F
  else none

/-- The unit of four hexadecimal digits. -/
def hexUnit (a b c d : ℕ) : Option UInt16 :=
  match hexVal a, hexVal b, hexVal c, hexVal d with
  | some w, some x, some y, some z => some (UInt16.ofNat (w * 0x1000 + x * 0x100 + y * 0x10 + z))
  | _, _, _, _ => none

/-- One character of a quoted string: its units, and the text behind it. -/
def parseChar : List ℕ → Option (Utf16 × List ℕ)
  | [] => none
  | c :: cs =>
    if c = 0x5C then
      match cs with
      | [] => none
      | e :: cs =>
        if e = 0x75 then
          match cs with
          | h₁ :: h₂ :: h₃ :: h₄ :: cs => (hexUnit h₁ h₂ h₃ h₄).map fun u => ([u], cs)
          | _ => none
        else (unescape e).map fun c => (units c, cs)
    else if c < 0x20 then none
    else some (units c, cs)

/-- The rest of a quoted string up to its closing quote, of at most `fuel` characters. -/
def parseChars : ℕ → List ℕ → Option (Utf16 × List ℕ)
  | 0, _ => none
  | _ + 1, [] => none
  | fuel + 1, c :: cs =>
    if c = 0x22 then some ([], cs)
    else (parseChar (c :: cs)).bind fun p => (parseChars fuel p.2).map fun q => (p.1 ++ q.1, q.2)

/-- A hexadecimal digit is read back. -/
theorem hexVal_hexDigit {d : ℕ} (h : d < 0x10) : hexVal (hexDigit d) = some d := by
  interval_cases d <;> rfl

/-- The letter of a short escape is read as its character. -/
theorem unescape_of_shortEscape {c e : ℕ} (h : shortEscape c = some e) :
    unescape e = some c ∧ e ≠ 0x75 := by
  unfold shortEscape at h
  split_ifs at h <;> subst_vars <;> cases h <;> decide

/-- A character that has no short escape is neither a quote nor a backslash. -/
theorem ne_of_shortEscape_eq_none {c : ℕ} (h : shortEscape c = none) : c ≠ 0x22 ∧ c ≠ 0x5C := by
  constructor <;> rintro rfl <;> cases h

/-- A character written inside a string is read back, and does not look like the closing quote. -/
theorem parseChar_escape_append (c : ℕ) (rest : List ℕ) :
    parseChar (escape c ++ rest) = some (units c, rest) ∧ (escape c).head? ≠ some 0x22 := by
  unfold escape
  cases hs : shortEscape c with
  | some e =>
    obtain ⟨hu, hne⟩ := unescape_of_shortEscape hs
    simp [parseChar, hne, hu]
  | none =>
    obtain ⟨hq, hb⟩ := ne_of_shortEscape_eq_none hs
    dsimp only
    split_ifs with h
    · have hlt : c < 0x10000 := by
        rcases h with h | ⟨-, h⟩ <;> omega
      have hval : c / 0x1000 % 0x10 * 0x1000 + c / 0x100 % 0x10 * 0x100 + c / 0x10 % 0x10 * 0x10
          + c % 0x10 = c := by omega
      have hunit : hexUnit (hexDigit (c / 0x1000 % 0x10)) (hexDigit (c / 0x100 % 0x10))
          (hexDigit (c / 0x10 % 0x10)) (hexDigit (c % 0x10)) = some (UInt16.ofNat c) := by
        simp only [hexUnit, hexVal_hexDigit (Nat.mod_lt _ (by decide : 0 < 0x10)), hval]
      refine ⟨?_, by simp⟩
      simp only [List.cons_append, List.nil_append, parseChar, if_true, hunit, Option.map_some,
        units,
        if_pos hlt]
    · have h20 : ¬ c < 0x20 := fun hc => h (.inl hc)
      simp [parseChar, hb, h20, hq]

/-- An escaped character is not empty. -/
theorem escape_ne_nil (c : ℕ) : escape c ≠ [] := by
  unfold escape
  split
  · simp
  · split_ifs <;> simp

/-- A string's characters are read back up to its closing quote. -/
theorem parseChars_flatMap (cs rest : List ℕ) {fuel : ℕ} (hf : cs.length < fuel) :
    parseChars fuel (cs.flatMap escape ++ 0x22 :: rest) = some (ofCodePoints cs, rest) := by
  induction cs generalizing fuel with
  | nil =>
    obtain ⟨n, rfl⟩ : ∃ n, fuel = n + 1 := ⟨fuel - 1, by omega⟩
    rfl
  | cons c cs ih =>
    rw [List.length_cons] at hf
    obtain ⟨n, rfl⟩ : ∃ n, fuel = n + 1 := ⟨fuel - 1, by omega⟩
    obtain ⟨hread, hne⟩ := parseChar_escape_append c (cs.flatMap escape ++ 0x22 :: rest)
    obtain ⟨d, ds, hd⟩ := List.exists_cons_of_ne_nil (escape_ne_nil c)
    have hd22 : d ≠ 0x22 := by
      rw [hd, List.head?_cons, ne_eq, Option.some_inj] at hne
      exact hne
    rw [List.flatMap_cons, List.append_assoc]
    rw [hd, List.cons_append] at hread ⊢
    rw [parseChars, if_neg hd22, hread, Option.bind_some, ih (by omega), Option.map_some,
      ofCodePoints_cons]

/-- An escaped character takes at least one. -/
theorem length_le_flatMap_escape (cs : List ℕ) : cs.length ≤ (cs.flatMap escape).length := by
  induction cs with
  | nil => exact Nat.le_refl _
  | cons c cs ih =>
    have := List.length_pos_iff.2 (escape_ne_nil c)
    rw [List.flatMap_cons, List.length_append, List.length_cons]
    omega

/-- A quoted string is read back, whatever its units. -/
theorem parseChars_quote (s : Utf16) (rest : List ℕ) {fuel : ℕ} (hf : (quote s).length ≤ fuel + 1) :
    parseChars fuel ((quote s).tail ++ rest) = some (s, rest) := by
  have hle := length_le_flatMap_escape (codePoints s)
  rw [quote, List.length_cons, List.length_append, List.length_singleton] at hf
  rw [quote, List.tail_cons, List.append_assoc, List.singleton_append,
    parseChars_flatMap _ _ (by omega), ofCodePoints_codePoints]

/-- A hexadecimal digit is an ASCII character. -/
theorem hexDigit_lt {d : ℕ} (h : d < 0x10) : 0 < hexDigit d ∧ hexDigit d < 0x80 := by
  unfold hexDigit
  split_ifs <;> omega

/-- What a character is written as is made of characters, none of them `U+0000`. -/
theorem scalar_of_mem_escape {c : ℕ} (h : c < 0x110000) {d : ℕ} (hd : d ∈ escape c) :
    Scalar d ∧ d ≠ 0 := by
  have hascii : ∀ n, 0 < n → n < 0x80 → Scalar n ∧ n ≠ 0 := fun n h₀ hlt =>
    ⟨⟨by omega, fun hs => by have := hs.1; omega⟩, by omega⟩
  unfold escape at hd
  split at hd
  · next e he =>
    have hlt : 0 < e ∧ e < 0x80 := by
      unfold shortEscape at he
      split_ifs at he <;> cases he <;> decide
    rcases List.mem_cons.1 hd with rfl | hd
    · decide
    · rw [List.mem_singleton.1 hd]
      exact hascii e hlt.1 hlt.2
  · split_ifs at hd with hc
    · have hx : ∀ n, Scalar (hexDigit (n % 0x10)) ∧ hexDigit (n % 0x10) ≠ 0 := fun n =>
        have hb := hexDigit_lt (Nat.mod_lt n (by decide : 0 < 0x10))
        hascii _ hb.1 hb.2
      simp only [List.mem_cons, List.not_mem_nil, or_false] at hd
      rcases hd with rfl | rfl | rfl | rfl | rfl | rfl
      · decide
      · decide
      all_goals exact hx _
    · rw [List.mem_singleton.1 hd]
      refine ⟨⟨h, fun hs => hc (.inr hs)⟩, fun h₀ => hc (.inl ?_)⟩
      omega

/-- A quoted string holds characters other than zero. -/
theorem scalar_of_mem_quote {s : Utf16} {c : ℕ} (h : c ∈ quote s) : Scalar c ∧ c ≠ 0 := by
  rcases List.mem_cons.1 h with rfl | h
  · decide
  rcases List.mem_append.1 h with h | h
  · obtain ⟨d, hd, hc⟩ := List.mem_flatMap.1 h
    exact scalar_of_mem_escape (codePoints_lt s d hd) hc
  · rw [List.mem_singleton.1 h]
    decide

/-! ## Values -/

mutual
/-- The text of a value, without white space. -/
def write : Json → List ℕ
  | null => [0x6E, 0x75, 0x6C, 0x6C]
  | bool true => [0x74, 0x72, 0x75, 0x65]
  | bool false => [0x66, 0x61, 0x6C, 0x73, 0x65]
  | num x => x.write
  | str s => quote s
  | arr [] => [0x5B, 0x5D]
  | arr (e :: es) => 0x5B :: (write e ++ writeElems es)
  | obj [] => [0x7B, 0x7D]
  | obj ((k, v) :: ms) => 0x7B :: (quote k ++ 0x3A :: (write v ++ writeMembers ms))

/-- The elements after the first one, with the closing bracket. -/
def writeElems : List Json → List ℕ
  | [] => [0x5D]
  | e :: es => 0x2C :: (write e ++ writeElems es)

/-- The members after the first one, with the closing brace. -/
def writeMembers : List (Utf16 × Json) → List ℕ
  | [] => [0x7D]
  | (k, v) :: ms => 0x2C :: (quote k ++ 0x3A :: (write v ++ writeMembers ms))
end

/-- White space. -/
def isSpace (c : ℕ) : Bool := c = 0x20 || c = 0x09 || c = 0x0A || c = 0x0D

/-- The text behind white space. -/
def skipSpace (cs : List ℕ) : List ℕ := cs.dropWhile isSpace

/-- The text behind a given one. -/
def expect (word cs : List ℕ) : Option (List ℕ) :=
  if word.isPrefixOf cs then some (cs.drop word.length) else none

mutual
/-- The value at the head of a text, and the text behind it. -/
def parseValue : ℕ → List ℕ → Option (Json × List ℕ)
  | 0, _ => none
  | fuel + 1, cs =>
    match skipSpace cs with
    | [] => none
    | c :: cs =>
      if c = 0x22 then (parseChars fuel cs).map fun p => (str p.1, p.2)
      else if c = 0x5B then
        match skipSpace cs with
        | [] => none
        | d :: ds =>
          if d = 0x5D then some (arr [], ds)
          else
            (parseValue fuel (d :: ds)).bind fun p =>
              (parseElems fuel p.2).map fun q => (arr (p.1 :: q.1), q.2)
      else if c = 0x7B then
        match skipSpace cs with
        | [] => none
        | d :: ds =>
          if d = 0x7D then some (obj [], ds)
          else
            (parseMember fuel (d :: ds)).bind fun p =>
              (parseMembers fuel p.2).map fun q => (obj (p.1 :: q.1), q.2)
      else if c = 0x6E then (expect [0x75, 0x6C, 0x6C] cs).map fun r => (null, r)
      else if c = 0x74 then (expect [0x72, 0x75, 0x65] cs).map fun r => (bool true, r)
      else if c = 0x66 then (expect [0x61, 0x6C, 0x73, 0x65] cs).map fun r => (bool false, r)
      else (Numeral.parse (c :: cs)).map fun p => (num p.1, p.2)

/-- The elements after the first one. -/
def parseElems : ℕ → List ℕ → Option (List Json × List ℕ)
  | 0, _ => none
  | fuel + 1, cs =>
    match skipSpace cs with
    | [] => none
    | c :: cs =>
      if c = 0x5D then some ([], cs)
      else if c = 0x2C then
        (parseValue fuel cs).bind fun p => (parseElems fuel p.2).map fun q => (p.1 :: q.1, q.2)
      else none

/-- A name, a colon and a value. -/
def parseMember : ℕ → List ℕ → Option ((Utf16 × Json) × List ℕ)
  | 0, _ => none
  | fuel + 1, cs =>
    match skipSpace cs with
    | [] => none
    | c :: cs =>
      if c = 0x22 then
        (parseChars fuel cs).bind fun p =>
          match skipSpace p.2 with
          | [] => none
          | d :: ds =>
            if d = 0x3A then (parseValue fuel ds).map fun q => ((p.1, q.1), q.2) else none
      else none

/-- The members after the first one. -/
def parseMembers : ℕ → List ℕ → Option (List (Utf16 × Json) × List ℕ)
  | 0, _ => none
  | fuel + 1, cs =>
    match skipSpace cs with
    | [] => none
    | c :: cs =>
      if c = 0x7D then some ([], cs)
      else if c = 0x2C then
        (parseMember fuel cs).bind fun p => (parseMembers fuel p.2).map fun q => (p.1 :: q.1, q.2)
      else none
end

/-- The value of a whole text. Each turn of the parser takes a character, so the text's length
bounds their number. -/
def parse (cs : List ℕ) : Option Json :=
  (parseValue (cs.length + 1) cs).bind fun p => if skipSpace p.2 = [] then some p.1 else none

/-! ## The round trip -/

/-- The first character of a value's text: neither white space, nor a closing bracket, nor a
byte-order mark. -/
def Starts (c : ℕ) : Prop := isSpace c = false ∧ c ≠ 0x5D ∧ c ≠ 0xFEFF

instance (c : ℕ) : Decidable (Starts c) := inferInstanceAs (Decidable (_ ∧ _))

/-- A text begins with a character that tells what follows. -/
theorem exists_starts_write (j : Json) : ∃ c cs, write j = c :: cs ∧ Starts c := by
  cases j with
  | null => exact ⟨_, _, by rw [write], by decide⟩
  | bool b => cases b <;> exact ⟨_, _, by rw [write], by decide⟩
  | num x =>
    obtain ⟨c, cs, hw, hc⟩ := x.head_write
    refine ⟨c, cs, by rw [write, hw], ?_⟩
    rcases hc with rfl | hc
    · decide
    · unfold IsDigit at hc
      refine ⟨?_, by omega, by omega⟩
      simp only [isSpace, Bool.or_eq_false_iff, decide_eq_false_iff_not]
      omega
  | str s => exact ⟨_, _, by rw [write, quote], by decide⟩
  | arr es =>
    cases es with
    | nil => exact ⟨_, _, by rw [write], by decide⟩
    | cons e es => exact ⟨_, _, by rw [write], by decide⟩
  | obj ms =>
    cases ms with
    | nil => exact ⟨_, _, by rw [write], by decide⟩
    | cons m ms => exact ⟨_, _, by rw [write], by decide⟩

/-- There is nothing to skip. -/
theorem skipSpace_cons {c : ℕ} (h : isSpace c = false) (cs : List ℕ) :
    skipSpace (c :: cs) = c :: cs := by
  rw [skipSpace, List.dropWhile_cons, h]
  rfl

/-- A text does not begin with a space. -/
theorem skipSpace_write_append (j : Json) (rest : List ℕ) :
    skipSpace (write j ++ rest) = write j ++ rest := by
  obtain ⟨c, cs, hw, hc⟩ := exists_starts_write j
  rw [hw, List.cons_append, skipSpace_cons hc.1]

/-- A number is over where the next element or the bracket begins. -/
theorem stops_writeElems (es : List Json) (rest : List ℕ) :
    Numeral.Stops (writeElems es ++ rest) := by
  intro c hc
  cases es with
  | nil =>
    rw [writeElems, List.singleton_append, List.head?_cons, Option.mem_some_iff] at hc
    subst hc
    decide
  | cons e es =>
    rw [writeElems, List.cons_append, List.head?_cons, Option.mem_some_iff] at hc
    subst hc
    decide

/-- A number is over where the next member or the brace begins. -/
theorem stops_writeMembers (ms : List (Utf16 × Json)) (rest : List ℕ) :
    Numeral.Stops (writeMembers ms ++ rest) := by
  intro c hc
  cases ms with
  | nil =>
    rw [writeMembers, List.singleton_append, List.head?_cons, Option.mem_some_iff] at hc
    subst hc
    decide
  | cons m ms =>
    rw [writeMembers, List.cons_append, List.head?_cons, Option.mem_some_iff] at hc
    subst hc
    decide

/-- No text is empty. -/
theorem length_write_pos (j : Json) : 0 < (write j).length := by
  obtain ⟨c, cs, hw, -⟩ := exists_starts_write j
  rw [hw, List.length_cons]
  omega

/-- A word is read. -/
theorem expect_append (word rest : List ℕ) : expect word (word ++ rest) = some rest := by
  rw [expect, if_pos (List.isPrefixOf_iff_prefix.2 (List.prefix_append word rest)), List.drop_left]

/-- A number literal is no other kind of value. -/
theorem parseValue_num (x : Numeral) {rest : List ℕ} (h : Numeral.Stops rest) (fuel : ℕ) :
    parseValue (fuel + 1) (x.write ++ rest) = some (num x, rest) := by
  obtain ⟨c, cs, hw, hc⟩ := x.head_write
  have hread := x.parse_write h
  have hspace := skipSpace_write_append (num x) rest
  rw [write] at hspace
  rw [parseValue, hspace]
  rw [hw, List.cons_append] at hread ⊢
  have hne : c ≠ 0x22 ∧ c ≠ 0x5B ∧ c ≠ 0x7B ∧ c ≠ 0x6E ∧ c ≠ 0x74 ∧ c ≠ 0x66 := by
    rcases hc with rfl | hc
    · decide
    · unfold IsDigit at hc
      omega
  obtain ⟨h₁, h₂, h₃, h₄, h₅, h₆⟩ := hne
  simp only [if_neg h₁, if_neg h₂, if_neg h₃, if_neg h₄, if_neg h₅, if_neg h₆, hread,
    Option.map_some]

/-- A string is read back. -/
theorem parseValue_str (s : Utf16) (rest : List ℕ) {fuel : ℕ} (hf : (quote s).length ≤ fuel + 1) :
    parseValue (fuel + 1) (quote s ++ rest) = some (str s, rest) := by
  have hread := parseChars_quote s rest hf
  rw [quote, List.tail_cons] at hread
  rw [parseValue, quote, List.cons_append, skipSpace_cons (by decide)]
  simp only [if_true, hread, Option.map_some]

/-- An array with a first element. -/
theorem parseValue_arr {e : Json} {cs rest : List ℕ} {fuel : ℕ}
    (he : parseValue fuel (write e ++ cs) = some (e, cs)) {es : List Json}
    (hes : parseElems fuel cs = some (es, rest)) :
    parseValue (fuel + 1) (0x5B :: (write e ++ cs)) = some (arr (e :: es), rest) := by
  obtain ⟨c, ds, hw, -, hne, -⟩ := exists_starts_write e
  have hskip := skipSpace_write_append e cs
  rw [parseValue, skipSpace_cons (by decide)]
  simp only [show (0x5B : ℕ) ≠ 0x22 by decide, if_false, if_true, hskip]
  rw [hw, List.cons_append] at he ⊢
  simp only [if_neg hne, he, Option.bind_some, hes, Option.map_some]

/-- A member is read back when its value is. -/
theorem parseMember_write {k : Utf16} {v : Json} {rest : List ℕ} {fuel : ℕ}
    (hv : parseValue fuel (write v ++ rest) = some (v, rest)) (hk : (quote k).length ≤ fuel + 1) :
    parseMember (fuel + 1) (quote k ++ 0x3A :: (write v ++ rest)) = some ((k, v), rest) := by
  have hread := parseChars_quote k (0x3A :: (write v ++ rest)) hk
  rw [quote, List.tail_cons] at hread
  rw [parseMember, quote, List.cons_append, skipSpace_cons (by decide)]
  simp only [if_true, hread, Option.bind_some, skipSpace_cons (show isSpace 0x3A = false by decide),
    hv, Option.map_some]

/-- An object with a first member. -/
theorem parseValue_obj {k : Utf16} {v : Json} {cs rest : List ℕ} {fuel : ℕ}
    (hm : parseMember fuel (quote k ++ cs) = some ((k, v), rest)) {ms : List (Utf16 × Json)}
    {rest' : List ℕ} (hms : parseMembers fuel rest = some (ms, rest')) :
    parseValue (fuel + 1) (0x7B :: (quote k ++ cs)) = some (obj ((k, v) :: ms), rest') := by
  have hskip : skipSpace (quote k ++ cs) = quote k ++ cs := by
    rw [quote, List.cons_append, skipSpace_cons (by decide)]
  rw [parseValue, skipSpace_cons (by decide)]
  simp only [show (0x7B : ℕ) ≠ 0x22 by decide, show (0x7B : ℕ) ≠ 0x5B by decide, if_false, if_true,
    hskip]
  rw [quote, List.cons_append] at hm ⊢
  simp only [show (0x22 : ℕ) ≠ 0x7D by decide, if_false, hm, Option.bind_some, hms, Option.map_some]

mutual
/-- A value written is read back, whatever follows that cannot go on with it. -/
theorem parseValue_write (j : Json) {rest : List ℕ} (h : Numeral.Stops rest) {fuel : ℕ}
    (hf : (write j).length ≤ fuel) : parseValue fuel (write j ++ rest) = some (j, rest) := by
  have hpos := length_write_pos j
  obtain ⟨n, rfl⟩ : ∃ n, fuel = n + 1 := ⟨fuel - 1, by omega⟩
  match j with
  | null =>
    rw [parseValue, skipSpace_write_append, write]
    exact congrArg (Option.map _) (expect_append [0x75, 0x6C, 0x6C] rest)
  | bool true =>
    rw [parseValue, skipSpace_write_append, write]
    exact congrArg (Option.map _) (expect_append [0x72, 0x75, 0x65] rest)
  | bool false =>
    rw [parseValue, skipSpace_write_append, write]
    exact congrArg (Option.map _) (expect_append [0x61, 0x6C, 0x73, 0x65] rest)
  | num x =>
    rw [write]
    exact parseValue_num x h n
  | str s =>
    rw [write] at hf ⊢
    exact parseValue_str s rest hf
  | arr [] =>
    rw [parseValue, skipSpace_write_append, write]
    rfl
  | arr (e :: es) =>
    rw [write, List.length_cons, List.length_append] at hf
    rw [write, List.cons_append, List.append_assoc]
    exact parseValue_arr (parseValue_write e (stops_writeElems es rest) (by omega))
      (parseElems_write es rest (by omega))
  | obj [] =>
    rw [parseValue, skipSpace_write_append, write]
    rfl
  | obj ((k, v) :: ms) =>
    rw [write, List.length_cons, List.length_append, List.length_cons, List.length_append] at hf
    have hkpos : 0 < (quote k).length := by rw [quote, List.length_cons]; omega
    obtain ⟨n, rfl⟩ : ∃ m, n = m + 1 := ⟨n - 1, by omega⟩
    have hv := parseValue_write v (stops_writeMembers ms rest) (show (write v).length ≤ n by omega)
    rw [write, List.cons_append, List.append_assoc, List.cons_append, List.append_assoc]
    exact parseValue_obj (parseMember_write hv (by omega)) (parseMembers_write ms rest (by omega))

/-- The elements after the first one are read back. -/
theorem parseElems_write (es : List Json) (rest : List ℕ) {fuel : ℕ}
    (hf : (writeElems es).length ≤ fuel) :
    parseElems fuel (writeElems es ++ rest) = some (es, rest) := by
  match es with
  | [] =>
    rw [writeElems, List.length_singleton] at hf
    obtain ⟨n, rfl⟩ : ∃ n, fuel = n + 1 := ⟨fuel - 1, by omega⟩
    rw [writeElems, List.singleton_append, parseElems, skipSpace_cons (by decide)]
    rfl
  | e :: es =>
    rw [writeElems, List.length_cons, List.length_append] at hf
    obtain ⟨n, rfl⟩ : ∃ n, fuel = n + 1 := ⟨fuel - 1, by omega⟩
    rw [writeElems, List.cons_append, List.append_assoc, parseElems, skipSpace_cons (by decide)]
    simp only [show (0x2C : ℕ) ≠ 0x5D by decide, if_false, if_true,
      parseValue_write e (stops_writeElems es rest) (show (write e).length ≤ n by omega),
      Option.bind_some, parseElems_write es rest (show (writeElems es).length ≤ n by omega),
      Option.map_some]

/-- The members after the first one are read back. -/
theorem parseMembers_write (ms : List (Utf16 × Json)) (rest : List ℕ) {fuel : ℕ}
    (hf : (writeMembers ms).length ≤ fuel) :
    parseMembers fuel (writeMembers ms ++ rest) = some (ms, rest) := by
  match ms with
  | [] =>
    rw [writeMembers, List.length_singleton] at hf
    obtain ⟨n, rfl⟩ : ∃ n, fuel = n + 1 := ⟨fuel - 1, by omega⟩
    rw [writeMembers, List.singleton_append, parseMembers, skipSpace_cons (by decide)]
    rfl
  | (k, v) :: ms =>
    rw [writeMembers, List.length_cons, List.length_append, List.length_cons, List.length_append]
      at hf
    have hkpos : 0 < (quote k).length := by rw [quote, List.length_cons]; omega
    obtain ⟨n, rfl⟩ : ∃ m, fuel = m + 1 + 1 := ⟨fuel - 2, by omega⟩
    have hv := parseValue_write v (stops_writeMembers ms rest) (show (write v).length ≤ n by omega)
    have hm := parseMember_write hv (show (quote k).length ≤ n + 1 by omega)
    rw [writeMembers, List.cons_append, List.append_assoc, List.cons_append, List.append_assoc,
      parseMembers, skipSpace_cons (by decide)]
    simp only [show (0x2C : ℕ) ≠ 0x7D by decide, if_false, if_true, hm, Option.bind_some,
      parseMembers_write ms rest (show (writeMembers ms).length ≤ n + 1 by omega), Option.map_some]
end

/-- **The round trip.** The text of a value is read as that value. -/
theorem parse_write (j : Json) : parse (write j) = some j := by
  have hstops : Numeral.Stops [] := fun c hc => by cases hc
  have hread := parseValue_write j hstops (Nat.le_succ (write j).length)
  rw [List.append_nil] at hread
  rw [parse, hread]
  rfl

/-! ## What the text is made of -/

/-- An ASCII character other than zero is one. -/
theorem scalar_of_ascii {c : ℕ} (h : c < 0x80 ∧ c ≠ 0) : Scalar c ∧ c ≠ 0 :=
  ⟨⟨by omega, fun hs => by have := hs.1; omega⟩, h.2⟩

mutual
/-- The text of a value is made of characters, none of them `U+0000`. -/
theorem scalar_of_mem_write (j : Json) {c : ℕ} (h : c ∈ write j) : Scalar c ∧ c ≠ 0 := by
  match j with
  | null =>
    rw [write] at h
    simp only [List.mem_cons, List.not_mem_nil, or_false] at h
    rcases h with rfl | rfl | rfl | rfl <;> decide
  | bool true =>
    rw [write] at h
    simp only [List.mem_cons, List.not_mem_nil, or_false] at h
    rcases h with rfl | rfl | rfl | rfl <;> decide
  | bool false =>
    rw [write] at h
    simp only [List.mem_cons, List.not_mem_nil, or_false] at h
    rcases h with rfl | rfl | rfl | rfl | rfl <;> decide
  | num x =>
    rw [write] at h
    exact scalar_of_ascii (x.write_lt c h)
  | str s =>
    rw [write] at h
    exact scalar_of_mem_quote h
  | arr [] =>
    rw [write] at h
    simp only [List.mem_cons, List.not_mem_nil, or_false] at h
    rcases h with rfl | rfl <;> decide
  | arr (e :: es) =>
    rw [write] at h
    rcases List.mem_cons.1 h with rfl | h
    · decide
    rcases List.mem_append.1 h with h | h
    · exact scalar_of_mem_write e h
    · exact scalar_of_mem_writeElems es h
  | obj [] =>
    rw [write] at h
    simp only [List.mem_cons, List.not_mem_nil, or_false] at h
    rcases h with rfl | rfl <;> decide
  | obj ((k, v) :: ms) =>
    rw [write] at h
    rcases List.mem_cons.1 h with rfl | h
    · decide
    rcases List.mem_append.1 h with h | h
    · exact scalar_of_mem_quote h
    rcases List.mem_cons.1 h with rfl | h
    · decide
    rcases List.mem_append.1 h with h | h
    · exact scalar_of_mem_write v h
    · exact scalar_of_mem_writeMembers ms h

/-- The rest of an array holds characters other than zero. -/
theorem scalar_of_mem_writeElems (es : List Json) {c : ℕ} (h : c ∈ writeElems es) :
    Scalar c ∧ c ≠ 0 := by
  match es with
  | [] =>
    rw [writeElems, List.mem_singleton] at h
    subst h
    decide
  | e :: es =>
    rw [writeElems] at h
    rcases List.mem_cons.1 h with rfl | h
    · decide
    rcases List.mem_append.1 h with h | h
    · exact scalar_of_mem_write e h
    · exact scalar_of_mem_writeElems es h

/-- The rest of an object holds characters other than zero. -/
theorem scalar_of_mem_writeMembers (ms : List (Utf16 × Json)) {c : ℕ} (h : c ∈ writeMembers ms) :
    Scalar c ∧ c ≠ 0 := by
  match ms with
  | [] =>
    rw [writeMembers, List.mem_singleton] at h
    subst h
    decide
  | (k, v) :: ms =>
    rw [writeMembers] at h
    rcases List.mem_cons.1 h with rfl | h
    · decide
    rcases List.mem_append.1 h with h | h
    · exact scalar_of_mem_quote h
    rcases List.mem_cons.1 h with rfl | h
    · decide
    rcases List.mem_append.1 h with h | h
    · exact scalar_of_mem_write v h
    · exact scalar_of_mem_writeMembers ms h
end

/-! ## Nesting -/

mutual

/-- How deep arrays and objects are nested. -/
def depth : Json → ℕ
  | arr es => depthElems es + 1
  | obj ms => depthMembers ms + 1
  | _ => 0

/-- The depth of the deepest element. -/
def depthElems : List Json → ℕ
  | [] => 0
  | e :: es => max (depth e) (depthElems es)

/-- The depth of the deepest member. -/
def depthMembers : List (Utf16 × Json) → ℕ
  | [] => 0
  | (_, v) :: ms => max (depth v) (depthMembers ms)

end

/-- An element is no deeper than the deepest. -/
theorem depth_le_depthElems {e : Json} {es : List Json} (h : e ∈ es) : depth e ≤ depthElems es := by
  induction es with
  | nil => cases h
  | cons a es ih =>
    rw [depthElems]
    rcases List.mem_cons.1 h with rfl | h
    · exact le_max_left _ _
    · exact (ih h).trans (le_max_right _ _)

/-- A member is no deeper than the deepest. -/
theorem depth_le_depthMembers {k : Utf16} {v : Json} {ms : List (Utf16 × Json)} (h : (k, v) ∈ ms) :
    depth v ≤ depthMembers ms := by
  induction ms with
  | nil => cases h
  | cons a ms ih =>
    obtain ⟨k', w⟩ := a
    rw [depthMembers]
    rcases List.mem_cons.1 h with h | h
    · cases h
      exact le_max_left _ _
    · exact (ih h).trans (le_max_right _ _)

end Json

end Codec
