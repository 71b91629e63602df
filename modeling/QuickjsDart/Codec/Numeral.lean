import Mathlib

/-!
# Number literals

The number literals of JSON, as text and as data: a sign, an integer part without leading zeros, the
digits of a fraction, and an exponent. `Numeral.parse_write` is the round trip, and `Numeral.value`
the rational a literal stands for.
-/

namespace Codec

/-! ## Digits -/

/-- The character of a digit. -/
def digitChar (d : Fin 10) : ℕ := d.val + 0x30

/-- A digit's character. -/
def IsDigit (c : ℕ) : Prop := 0x30 ≤ c ∧ c < 0x3A

instance (c : ℕ) : Decidable (IsDigit c) := inferInstanceAs (Decidable (_ ∧ _))

/-- The digits at the head of a text, and the text behind them. -/
def spanDigits : List ℕ → List (Fin 10) × List ℕ
  | [] => ([], [])
  | c :: cs =>
    if IsDigit c then (Fin.ofNat 10 (c - 0x30) :: (spanDigits cs).1, (spanDigits cs).2)
    else ([], c :: cs)

/-- The number that digits stand for, the most significant first. -/
def digitsVal (ds : List (Fin 10)) : ℕ := ds.foldl (fun a d => a * 10 + d) 0

/-- The digits of a number, the most significant first, without leading zeros. -/
def natDigits (n : ℕ) : List (Fin 10) :=
  if n = 0 then [0] else (Nat.digits 10 n).reverse.map (Fin.ofNat 10)

/-- The last `k` digits of a number, with leading zeros. -/
def fixedDigits : ℕ → ℕ → List (Fin 10)
  | 0, _ => []
  | k + 1, n => fixedDigits k (n / 10) ++ [Fin.ofNat 10 n]

/-- The text does not go on with a digit. -/
def NoDigit (cs : List ℕ) : Prop := ∀ c ∈ cs.head?, ¬ IsDigit c

/-- A digit is written as one. -/
theorem isDigit_digitChar (d : Fin 10) : IsDigit (digitChar d) := by
  unfold IsDigit digitChar
  omega

/-- Digits written are read back, up to the first other character. -/
theorem spanDigits_map (ds : List (Fin 10)) {rest : List ℕ} (h : NoDigit rest) :
    spanDigits (ds.map digitChar ++ rest) = (ds, rest) := by
  induction ds with
  | nil =>
    cases rest with
    | nil => rfl
    | cons c cs => rw [List.map_nil, List.nil_append, spanDigits, if_neg (h c rfl)]
  | cons d ds ih =>
    have hd : Fin.ofNat 10 (digitChar d - 0x30) = d := by
      ext
      simp [digitChar, Fin.ofNat, Nat.mod_eq_of_lt d.isLt]
    rw [List.map_cons, List.cons_append, spanDigits, if_pos (isDigit_digitChar d), ih, hd]

/-- The value of digits with one more behind. -/
theorem digitsVal_append (ds : List (Fin 10)) (d : Fin 10) :
    digitsVal (ds ++ [d]) = digitsVal ds * 10 + d := by
  simp [digitsVal]

/-- The digits read off a number, least significant first, are below ten. -/
theorem digitsVal_reverse_map {l : List ℕ} (h : ∀ d ∈ l, d < 10) :
    digitsVal (l.reverse.map (Fin.ofNat 10)) = Nat.ofDigits 10 l := by
  induction l with
  | nil => rfl
  | cons d l ih =>
    have hd : d % 10 = d := Nat.mod_eq_of_lt (h d List.mem_cons_self)
    rw [List.reverse_cons, List.map_append, List.map_singleton, digitsVal_append,
      ih fun x hx => h x (List.mem_cons_of_mem _ hx), Nat.ofDigits_cons, Fin.val_ofNat, hd]
    ring

/-- The digits of a number have its value. -/
@[simp] theorem digitsVal_natDigits (n : ℕ) : digitsVal (natDigits n) = n := by
  unfold natDigits
  split_ifs with h
  · rw [h]; rfl
  · rw [digitsVal_reverse_map fun d hd => Nat.digits_lt_base (by norm_num) hd, Nat.ofDigits_digits]

/-- A number has a digit, also zero. -/
theorem natDigits_ne_nil (n : ℕ) : natDigits n ≠ [] := by
  unfold natDigits
  split_ifs with h
  · simp
  · simpa using Nat.digits_ne_nil_iff_ne_zero.2 h

/-- Only the number zero starts with the digit zero. -/
theorem natDigits_zero_cons {n : ℕ} {ds : List (Fin 10)} (h : natDigits n = 0 :: ds) : ds = [] := by
  unfold natDigits at h
  split_ifs at h with hn
  · exact (List.cons.inj h).2.symm
  · have hne : Nat.digits 10 n ≠ [] := Nat.digits_ne_nil_iff_ne_zero.2 hn
    have hlast := Nat.getLast_digit_ne_zero 10 hn
    have hlt := Nat.digits_lt_base (b := 10) (by norm_num) (List.getLast_mem hne)
    have hhead : (Nat.digits 10 n).reverse.head? = some ((Nat.digits 10 n).getLast hne) := by
      rw [List.head?_reverse, List.getLast?_eq_some_getLast hne]
    have h₀ := congrArg List.head? h
    rw [List.head?_map, hhead, Option.map_some, List.head?_cons, Option.some_inj] at h₀
    have h₁ := congrArg Fin.val h₀
    rw [Fin.val_ofNat, Nat.mod_eq_of_lt hlt] at h₁
    exact absurd h₁ hlast

/-- So many digits as were asked for. -/
@[simp] theorem length_fixedDigits (k n : ℕ) : (fixedDigits k n).length = k := by
  induction k generalizing n with
  | zero => rfl
  | succ k ih => simp [fixedDigits, ih]

/-- The last digits of a number are its remainder. -/
theorem digitsVal_fixedDigits (k n : ℕ) : digitsVal (fixedDigits k n) = n % 10 ^ k := by
  induction k generalizing n with
  | zero => simp [fixedDigits, digitsVal, Nat.mod_one]
  | succ k ih =>
    rw [fixedDigits, digitsVal_append, ih, Fin.val_ofNat, pow_succ', Nat.mod_mul]
    ring

/-! ## Literals -/

/-- A number literal. An empty fraction has no decimal point. -/
structure Numeral where
  neg : Bool
  int : ℕ
  frac : List (Fin 10)
  exp : Option ℤ
  deriving DecidableEq

namespace Numeral

/-- The text of an exponent. -/
def writeExp : Option ℤ → List ℕ
  | none => []
  | some p =>
    0x65 :: (if 0 ≤ p then 0x2B else 0x2D) :: (natDigits p.natAbs).map digitChar

/-- The text of a literal. -/
def write (x : Numeral) : List ℕ :=
  (if x.neg then [0x2D] else []) ++ ((natDigits x.int).map digitChar ++
    ((if x.frac = [] then [] else 0x2E :: x.frac.map digitChar) ++ writeExp x.exp))

/-- A minus sign, if there is one. -/
def parseSign : List ℕ → Bool × List ℕ
  | [] => (false, [])
  | c :: cs => if c = 0x2D then (true, cs) else (false, c :: cs)

/-- The integer part: no leading zeros. -/
def parseInt (cs : List ℕ) : Option (ℕ × List ℕ) :=
  match spanDigits cs with
  | ([], _) => none
  | (d :: ds, rest) => if d = 0 ∧ ds ≠ [] then none else some (digitsVal (d :: ds), rest)

/-- The fraction: a decimal point asks for a digit. -/
def parseFrac : List ℕ → Option (List (Fin 10) × List ℕ)
  | [] => some ([], [])
  | c :: cs =>
    if c = 0x2E then
      match spanDigits cs with
      | ([], _) => none
      | (d :: ds, rest) => some (d :: ds, rest)
    else some ([], c :: cs)

/-- The exponent's digits, its sign read. -/
def parseExpDigits (neg : Bool) (cs : List ℕ) : Option (Option ℤ × List ℕ) :=
  match spanDigits cs with
  | ([], _) => none
  | (d :: ds, rest) =>
    some (some (if neg then -(digitsVal (d :: ds) : ℤ) else digitsVal (d :: ds)), rest)

/-- The exponent, with or without a sign. -/
def parseExp : List ℕ → Option (Option ℤ × List ℕ)
  | [] => some (none, [])
  | c :: cs =>
    if c = 0x65 ∨ c = 0x45 then
      match cs with
      | [] => none
      | s :: cs' =>
        if s = 0x2B then parseExpDigits false cs'
        else if s = 0x2D then parseExpDigits true cs'
        else parseExpDigits false (s :: cs')
    else some (none, c :: cs)

/-- The literal at the head of a text, and the text behind it. -/
def parse (cs : List ℕ) : Option (Numeral × List ℕ) :=
  (parseInt (parseSign cs).2).bind fun i =>
    (parseFrac i.2).bind fun f =>
      (parseExp f.2).map fun e => (⟨(parseSign cs).1, i.1, f.1, e.1⟩, e.2)

/-- The magnitude of a literal. -/
def magnitude (x : Numeral) : ℚ :=
  (x.int * 10 ^ x.frac.length + digitsVal x.frac : ℕ) * (10 : ℚ) ^ (x.exp.getD 0 - x.frac.length)

/-- The rational a literal stands for. -/
def value (x : Numeral) : ℚ := if x.neg then -x.magnitude else x.magnitude

/-- The integer of a literal without fraction and exponent. -/
def toInt (x : Numeral) : ℤ := if x.neg then -(x.int : ℤ) else x.int

/-- A text a literal may stand before: none of its characters could go on with the literal. -/
def Stops (cs : List ℕ) : Prop :=
  ∀ c ∈ cs.head?, ¬ IsDigit c ∧ c ≠ 0x2E ∧ c ≠ 0x65 ∧ c ≠ 0x45

/-- Where a numeral stops there is no digit. -/
theorem Stops.noDigit {cs : List ℕ} (h : Stops cs) : NoDigit cs := fun c hc => (h c hc).1

/-- The digits of an exponent are read to their end. -/
theorem parseExpDigits_map (neg : Bool) (n : ℕ) {rest : List ℕ} (h : NoDigit rest) :
    parseExpDigits neg ((natDigits n).map digitChar ++ rest)
      = some (some (if neg then -(n : ℤ) else n), rest) := by
  obtain ⟨d, ds, hd⟩ := List.exists_cons_of_ne_nil (natDigits_ne_nil n)
  have hval : digitsVal (d :: ds) = n := by rw [← hd, digitsVal_natDigits]
  rw [parseExpDigits, spanDigits_map _ h, hd]
  simp only [hval]

/-- An exponent is read back, or its absence. -/
theorem parseExp_write (p : Option ℤ) {rest : List ℕ} (h : Stops rest) :
    parseExp (writeExp p ++ rest) = some (p, rest) := by
  cases p with
  | none =>
    cases rest with
    | nil => rfl
    | cons c cs =>
      obtain ⟨-, -, h₁, h₂⟩ := h c rfl
      simp only [writeExp, List.nil_append, parseExp, h₁, h₂, or_self, if_false]
  | some p =>
    by_cases hp : 0 ≤ p
    · simp only [writeExp, List.cons_append, parseExp, true_or, if_true]
      simp only [if_pos hp, if_true, parseExpDigits_map false _ h.noDigit, Bool.false_eq_true,
        if_false, Int.natAbs_of_nonneg hp]
    · have hn : -(p.natAbs : ℤ) = p := by omega
      simp only [writeExp, List.cons_append, parseExp, true_or, if_true]
      simp only [if_neg hp, show (0x2D : ℕ) ≠ 0x2B by decide, if_false, if_true,
        parseExpDigits_map true _ h.noDigit, hn]

/-- What follows the fraction starts with no digit and no decimal point. -/
theorem noFrac_writeExp (p : Option ℤ) {rest : List ℕ} (h : Stops rest) :
    ∀ c ∈ (writeExp p ++ rest).head?, ¬ IsDigit c ∧ c ≠ 0x2E := by
  cases p with
  | none => exact fun c hc => ⟨(h c hc).1, (h c hc).2.1⟩
  | some p =>
    intro c hc
    rw [writeExp, List.cons_append, List.head?_cons, Option.mem_some_iff] at hc
    subst hc
    decide

/-- A fraction is read back, or its absence. -/
theorem parseFrac_write (ds : List (Fin 10)) {rest : List ℕ}
    (h : ∀ c ∈ rest.head?, ¬ IsDigit c ∧ c ≠ 0x2E) :
    parseFrac ((if ds = [] then [] else 0x2E :: ds.map digitChar) ++ rest) = some (ds, rest) := by
  cases ds with
  | nil =>
    cases rest with
    | nil => rfl
    | cons c cs => rw [if_pos rfl, List.nil_append, parseFrac, if_neg (h c rfl).2]
  | cons d ds =>
    rw [if_neg (by simp), List.cons_append, parseFrac, if_pos rfl,
      spanDigits_map _ fun c hc => (h c hc).1]

/-- An integer part is read back. -/
theorem parseInt_map (n : ℕ) {rest : List ℕ} (h : NoDigit rest) :
    parseInt ((natDigits n).map digitChar ++ rest) = some (n, rest) := by
  obtain ⟨d, ds, hd⟩ := List.exists_cons_of_ne_nil (natDigits_ne_nil n)
  have hval : digitsVal (d :: ds) = n := by rw [← hd, digitsVal_natDigits]
  have hlead : ¬ (d = 0 ∧ ds ≠ []) := by
    rintro ⟨rfl, hne⟩
    exact hne (natDigits_zero_cons hd)
  rw [parseInt, spanDigits_map _ h, hd]
  simp only [if_neg hlead, hval]

/-- A sign is read back, or its absence. -/
theorem parseSign_write (neg : Bool) (n : ℕ) (rest : List ℕ) :
    parseSign ((if neg then [0x2D] else []) ++ ((natDigits n).map digitChar ++ rest))
      = (neg, (natDigits n).map digitChar ++ rest) := by
  cases neg with
  | true => rfl
  | false =>
    obtain ⟨d, ds, hd⟩ := List.exists_cons_of_ne_nil (natDigits_ne_nil n)
    have hne : digitChar d ≠ 0x2D := by
      have := (isDigit_digitChar d).1
      omega
    simp only [hd, List.map_cons, List.cons_append, List.nil_append, Bool.false_eq_true, if_false,
      parseSign, if_neg hne]

/-- **A literal written is read back**, whatever follows that cannot go on with it. -/
theorem parse_write (x : Numeral) {rest : List ℕ} (h : Stops rest) :
    parse (x.write ++ rest) = some (x, rest) := by
  have hfrac : NoDigit ((if x.frac = [] then [] else 0x2E :: x.frac.map digitChar) ++
      (writeExp x.exp ++ rest)) := by
    split_ifs
    · exact fun c hc => (noFrac_writeExp x.exp h c hc).1
    · intro c hc
      rw [List.cons_append, List.head?_cons, Option.mem_some_iff] at hc
      subst hc
      decide
  rw [parse, write, List.append_assoc, List.append_assoc, List.append_assoc, parseSign_write,
    parseInt_map _ hfrac, Option.bind_some, parseFrac_write _ (noFrac_writeExp x.exp h),
    Option.bind_some, parseExp_write _ h, Option.map_some]

/-- A literal starts with a minus sign or a digit. -/
theorem head_write (x : Numeral) : ∃ c cs, x.write = c :: cs ∧ (c = 0x2D ∨ IsDigit c) := by
  obtain ⟨d, ds, hd⟩ := List.exists_cons_of_ne_nil (natDigits_ne_nil x.int)
  cases hn : x.neg with
  | true => exact ⟨_, _, by rw [write, hn]; rfl, .inl rfl⟩
  | false => exact ⟨digitChar d, _, by rw [write, hn, hd]; rfl, .inr (isDigit_digitChar d)⟩

/-- A literal is ASCII text. -/
theorem write_lt (x : Numeral) : ∀ c ∈ x.write, c < 0x80 ∧ c ≠ 0 := by
  have hds : ∀ ds : List (Fin 10), ∀ c ∈ ds.map digitChar, c < 0x80 ∧ c ≠ 0 := by
    intro ds c hc
    obtain ⟨d, -, rfl⟩ := List.mem_map.1 hc
    have := isDigit_digitChar d
    unfold IsDigit at this
    omega
  intro c hc
  simp only [write, List.mem_append] at hc
  rcases hc with hc | hc | hc | hc
  · split_ifs at hc
    · rw [List.mem_singleton.1 hc]; decide
    · cases hc
  · exact hds _ c hc
  · split_ifs at hc
    · cases hc
    · rcases List.mem_cons.1 hc with rfl | hc
      · decide
      · exact hds _ c hc
  · cases hp : x.exp with
    | none => rw [hp] at hc; cases hc
    | some p =>
      rw [hp, writeExp] at hc
      rcases List.mem_cons.1 hc with rfl | hc
      · decide
      rcases List.mem_cons.1 hc with rfl | hc
      · split_ifs <;> decide
      · exact hds _ c hc

end Numeral

end Codec
