import QuickjsDart.Codec.Decimal
import QuickjsDart.Codec.Numeral

/-!
# Numbers as text

The number formatting of QuickJS (`js_ecvt`, `js_dtoa1`) and the number reading of dart:convert's
`jsonDecode`. A finite number is written as a literal, `jsDtoa1`, and read as an `int` where the
literal has neither fraction nor exponent and fits 64 bits, else as a `double`.

What comes back is the number for one that is not integral (`jsonNumber_of_not_isInt`) and the
integer for one that is integral and safe (`jsonNumber_of_toRat`); beyond the safe integers it is
the number, or an integer that is not safe either (`jsonNumber_of_isInt`).
-/

namespace QuickjsDart

open Codec

/-! ## Writing -/

/-- The loop of `js_ecvt`: look for the least number of digits in `[nMin, nMax]` that `strtod` reads
back, leaving out trailing zeros whenever one is found. Each turn narrows the interval, so that 17
turns are enough for `[1, 17]`. -/
def jsEcvtLoop (neg : Bool) (m : ℕ) (e : ℤ) (h : Canonical m e) : ℕ → ℕ → ℕ → ℕ
  | 0, _, nMax => nMax
  | turns + 1, nMin, nMax =>
    if nMin < nMax then
      let n := (nMin + nMax) / 2
      let p := sci n (mag m e)
      if Binary64.ofMag neg (sciVal n p.1 p.2) = .fin neg m e h then
        jsEcvtLoop neg m e h turns nMin (stripZeros n p.1)
      else jsEcvtLoop neg m e h turns (n + 1) nMax
    else nMax

/-- `js_ecvt` with `is_fixed = FALSE`: the number of digits. -/
def jsEcvt (neg : Bool) (m : ℕ) (e : ℤ) (h : Canonical m e) : ℕ := jsEcvtLoop neg m e h 17 1 17

/-- The last part of `js_dtoa1`: `k` digits `D`, the decimal point after the first `n`. -/
def dtoaForm (neg : Bool) (D k : ℕ) (n : ℤ) : Numeral :=
  if 1 ≤ n ∧ n ≤ 21 then
    if k ≤ n then ⟨neg, D * 10 ^ (n - k).toNat, [], none⟩
    else ⟨neg, D / 10 ^ (k - n).toNat, fixedDigits (k - n).toNat D, none⟩
  else if -5 ≤ n ∧ n ≤ 0 then ⟨neg, 0, fixedDigits ((-n).toNat + k) D, none⟩
  else ⟨neg, D / 10 ^ (k - 1), fixedDigits (k - 1) D, some (n - 1)⟩

/-- `i64toa`: the literal of an integer. -/
def intNumeral (n : ℤ) : Numeral := ⟨decide (n < 0), n.natAbs, [], none⟩

/-- `js_dtoa1` with `JS_DTOA_VAR_FORMAT` on a finite number: safe integers take a path of their
own. -/
def jsNumeral (neg : Bool) (m : ℕ) (e : ℤ) (h : Canonical m e) : Numeral :=
  if (Binary64.fin neg m e h).isInt ∧ (Binary64.fin neg m e h).trunc.natAbs ≤ 2 ^ 53 - 1 then
    intNumeral (Binary64.fin neg m e h).trunc
  else
    let k := jsEcvt neg m e h
    let p := sci k (mag m e)
    dtoaForm neg p.1 k (p.2 + 1)

/-- `js_dtoa1`: the text of a number. -/
def jsDtoa1 : Binary64 → List ℕ
  | .nan => [0x4E, 0x61, 0x4E]
  | .inf neg =>
    (if neg then [0x2D] else []) ++ [0x49, 0x6E, 0x66, 0x69, 0x6E, 0x69, 0x74, 0x79]
  | .fin neg m e h => (jsNumeral neg m e h).write

/-- `n` digits are enough for `strtod` to read the number back. -/
def ReadsBack (neg : Bool) (m : ℕ) (e : ℤ) (h : Canonical m e) (n : ℕ) : Prop :=
  0 < n ∧ Binary64.ofMag neg (sciVal n (sci n (mag m e)).1 (sci n (mag m e)).2) = .fin neg m e h

/-- The loop only ever replaces its upper end by fewer digits that are read back. -/
theorem jsEcvtLoop_readsBack {neg : Bool} {m : ℕ} {e : ℤ} {h : Canonical m e} (hm : 0 < m)
    (turns nMin nMax : ℕ) (hmin : 0 < nMin) (hmax : ReadsBack neg m e h nMax) :
    ReadsBack neg m e h (jsEcvtLoop neg m e h turns nMin nMax) := by
  have hx : 0 < mag m e := by unfold mag; positivity
  induction turns generalizing nMin nMax with
  | zero => exact hmax
  | succ turns ih =>
    rw [jsEcvtLoop]
    by_cases hlt : nMin < nMax
    · rw [if_pos hlt]
      have hn : 0 < (nMin + nMax) / 2 := by omega
      dsimp only
      split
      · next hfound =>
        refine ih nMin _ hmin ⟨stripZeros_pos hn _, ?_⟩
        rw [sci_stripZeros hn hx]
        exact hfound
      · exact ih _ nMax (Nat.succ_pos _) hmax
    · rw [if_neg hlt]
      exact hmax

/-- The digits `js_ecvt` finds are read back: 17 of them always are. -/
theorem jsEcvt_readsBack (neg : Bool) {m : ℕ} {e : ℤ} (h : Canonical m e) (hm : 0 < m) :
    ReadsBack neg m e h (jsEcvt neg m e h) :=
  jsEcvtLoop_readsBack hm 17 1 17 Nat.one_pos
    ⟨by norm_num, Binary64.ofMag_of_roundMag h (roundMag_sci_seventeen h hm) neg⟩

/-- Digits split at any place stand for the same number. -/
theorem div_mul_add_digitsVal (D j : ℕ) :
    D / 10 ^ j * 10 ^ j + digitsVal (fixedDigits j D) = D := by
  rw [digitsVal_fixedDigits]
  exact Nat.div_add_mod' D (10 ^ j)

/-- Every form of `js_dtoa1` stands for the digits at their place. -/
theorem magnitude_dtoaForm (neg : Bool) {D k : ℕ} (hk : 0 < k) (hD : D < 10 ^ k) (n : ℤ) :
    (dtoaForm neg D k n).magnitude = sciVal k D (n - 1) := by
  unfold dtoaForm sciVal
  split_ifs with h₁ h₂ h₃
  · -- an integer: the digits, then zeros
    obtain ⟨j, hj⟩ : ∃ j : ℕ, n - k = j := Int.eq_ofNat_of_zero_le (by omega)
    have hexp : n - 1 - (k : ℤ) + 1 = j := by omega
    rw [hexp, hj, Int.toNat_natCast]
    simp [Numeral.magnitude, digitsVal]
  · -- a decimal point inside the digits
    obtain ⟨j, hj⟩ : ∃ j : ℕ, (k : ℤ) - n = j := Int.eq_ofNat_of_zero_le (by omega)
    have hexp : n - 1 - (k : ℤ) + 1 = 0 - (j : ℤ) := by omega
    rw [hexp, hj, Int.toNat_natCast]
    simp only [Numeral.magnitude, length_fixedDigits, div_mul_add_digitsVal, Option.getD_none]
  · -- zeros, then the digits
    obtain ⟨j, hj⟩ : ∃ j : ℕ, -n = j := Int.eq_ofNat_of_zero_le (by omega)
    have hexp : n - 1 - (k : ℤ) + 1 = 0 - ((j + k : ℕ) : ℤ) := by push_cast; omega
    have hlt : D < 10 ^ (j + k) := hD.trans_le (Nat.pow_le_pow_right (by norm_num) (by omega))
    rw [hexp, hj, Int.toNat_natCast]
    simp only [Numeral.magnitude, digitsVal_fixedDigits, length_fixedDigits, Option.getD_none,
      zero_mul, zero_add, Nat.mod_eq_of_lt hlt]
  · -- scientific notation
    have hexp : n - 1 - (k : ℤ) + 1 = n - 1 - ((k - 1 : ℕ) : ℤ) := by omega
    rw [hexp]
    simp only [Numeral.magnitude, length_fixedDigits, div_mul_add_digitsVal, Option.getD_some]

/-- The sign of a numeral is that which it was given. -/
@[simp] theorem dtoaForm_neg (neg : Bool) (D k : ℕ) (n : ℤ) : (dtoaForm neg D k n).neg = neg := by
  unfold dtoaForm
  split_ifs <;> rfl

/-! ## Reading -/

/-- A Dart number. -/
inductive DartNum where
  | int (n : Int64)
  | double (d : Binary64)
  deriving DecidableEq

/-- dart:convert's number: an `int` when the literal is one and fits 64 bits, else the nearest
`double`; `-0` is a `double`. -/
def jsonNumber (x : Numeral) : DartNum :=
  if x.frac = [] ∧ x.exp = none ∧ ¬ (x.neg = true ∧ x.int = 0) ∧
    -2 ^ 63 ≤ x.toInt ∧ x.toInt < 2 ^ 63
  then .int (Int64.ofInt x.toInt)
  else .double (Binary64.ofMag x.neg x.magnitude)

/-- An integer is read back from its numeral. -/
@[simp] theorem toInt_intNumeral (n : ℤ) : (intNumeral n).toInt = n := by
  unfold intNumeral Numeral.toInt
  rcases lt_or_ge n 0 with h | h
  · rw [if_pos (by simpa using h)]
    dsimp only
    omega
  · rw [if_neg (by simpa using h)]
    dsimp only
    omega

/-- An integer of 64 bits is read back. -/
theorem jsonNumber_intNumeral {n : ℤ} (hlo : -2 ^ 63 ≤ n) (hhi : n < 2 ^ 63) :
    jsonNumber (intNumeral n) = .int (Int64.ofInt n) := by
  have hneg : ¬ ((intNumeral n).neg = true ∧ (intNumeral n).int = 0) := by
    rintro ⟨h₁, h₂⟩
    have h₁ : n < 0 := of_decide_eq_true h₁
    have h₂ : n.natAbs = 0 := h₂
    omega
  rw [jsonNumber, toInt_intNumeral, if_pos ⟨rfl, rfl, hneg, hlo, hhi⟩]

section

variable {neg : Bool} {m : ℕ} {e : ℤ} (h : Canonical m e)

/-- Zero is a safe integer. -/
theorem pos_of_not_safe (hs : ¬ ((Binary64.fin neg m e h).isInt ∧
    (Binary64.fin neg m e h).trunc.natAbs ≤ 2 ^ 53 - 1)) : 0 < m := by
  rcases Nat.eq_zero_or_pos m with rfl | hm
  · have hz : (Binary64.fin neg 0 e h).toRat = (0 : ℤ) := by
      cases neg <;> simp [Binary64.toRat, mag]
    refine absurd ⟨(Binary64.isInt_iff _).2 ⟨rfl, 0, hz⟩, ?_⟩ hs
    rw [Binary64.trunc_of_toRat hz]
    norm_num
  · exact hm

/-- A number that is no safe integer is what its literal rounds to. -/
theorem ofMag_magnitude_jsNumeral (hs : ¬ ((Binary64.fin neg m e h).isInt ∧
    (Binary64.fin neg m e h).trunc.natAbs ≤ 2 ^ 53 - 1)) :
    Binary64.ofMag (jsNumeral neg m e h).neg (jsNumeral neg m e h).magnitude = .fin neg m e h := by
  have hm := pos_of_not_safe h hs
  have hx : 0 < mag m e := by unfold mag; positivity
  obtain ⟨hk, hread⟩ := jsEcvt_readsBack neg h hm
  rw [jsNumeral, if_neg hs]
  dsimp only
  rw [dtoaForm_neg, magnitude_dtoaForm neg hk (sci_fst_lt hk hx), add_sub_cancel_right]
  exact hread

/-- A safe integer is read back as that integer. -/
theorem jsonNumber_of_toRat {n : ℤ} (hn : (Binary64.fin neg m e h).toRat = n)
    (hs : n.natAbs ≤ 2 ^ 53 - 1) : jsonNumber (jsNumeral neg m e h) = .int (Int64.ofInt n) := by
  have hint : (Binary64.fin neg m e h).isInt = true := (Binary64.isInt_iff _).2 ⟨rfl, n, hn⟩
  have htr := Binary64.trunc_of_toRat hn
  rw [jsNumeral, if_pos ⟨hint, by rwa [htr]⟩, htr]
  exact jsonNumber_intNumeral (by omega) (by omega)

/-- An integer literal rounds to an integral number. -/
theorem isInt_ofMag_of_int {x : Numeral} (hf : x.frac = []) (he : x.exp = none)
    (hfin : (Binary64.ofMag x.neg x.magnitude).isFinite) :
    x.magnitude = x.int ∧ (Binary64.ofMag x.neg x.magnitude).isInt = true := by
  have hmag : x.magnitude = x.int := by simp [Numeral.magnitude, hf, he, digitsVal]
  rw [hmag] at hfin ⊢
  exact ⟨rfl, Binary64.isInt_ofMag_natCast hfin⟩

/-- A number that is not integral is read back as that number. -/
theorem jsonNumber_of_not_isInt (hni : (Binary64.fin neg m e h).isInt = false) :
    jsonNumber (jsNumeral neg m e h) = .double (.fin neg m e h) := by
  have hs : ¬ ((Binary64.fin neg m e h).isInt = true ∧
      (Binary64.fin neg m e h).trunc.natAbs ≤ 2 ^ 53 - 1) := by simp [hni]
  have hread := ofMag_magnitude_jsNumeral h hs
  rw [jsonNumber, if_neg, hread]
  rintro ⟨hf, he, -⟩
  have hint := (isInt_ofMag_of_int hf he (by rw [hread]; rfl)).2
  rw [hread, hni] at hint
  cases hint

/-- An integral number is read back as an integer with that value, or as that number, or as an
integer beyond the safe ones. -/
theorem jsonNumber_of_isInt {n : ℤ} (hn : (Binary64.fin neg m e h).toRat = n) :
    (∃ k : Int64, jsonNumber (jsNumeral neg m e h) = .int k ∧
      (k.toInt = n ∨ 2 ^ 53 ≤ k.toInt.natAbs)) ∨
      jsonNumber (jsNumeral neg m e h) = .double (.fin neg m e h) := by
  by_cases hsafe : n.natAbs ≤ 2 ^ 53 - 1
  · refine .inl ⟨_, jsonNumber_of_toRat h hn hsafe, .inl ?_⟩
    rw [Int64.toInt_ofInt_of_le (by omega) (by omega)]
  · have hs : ¬ ((Binary64.fin neg m e h).isInt ∧
        (Binary64.fin neg m e h).trunc.natAbs ≤ 2 ^ 53 - 1) := by
      rw [Binary64.trunc_of_toRat hn]
      exact fun hc => hsafe hc.2
    have hread := ofMag_magnitude_jsNumeral h hs
    unfold jsonNumber
    split_ifs with hint
    · obtain ⟨hf, he, -, hlo, hhi⟩ := hint
      refine .inl ⟨_, rfl, .inr ?_⟩
      rw [Int64.toInt_ofInt_of_le (by omega) (by omega)]
      obtain ⟨hmag, -⟩ := isInt_ofMag_of_int hf he (by rw [hread]; rfl)
      -- below 2 ^ 53 the literal would be exact, and the number with it
      by_contra hlt
      have hsmall : (jsNumeral neg m e h).int < 2 ^ 53 := by
        unfold Numeral.toInt at hlt
        split_ifs at hlt <;> omega
      have hval := (Binary64.toRat_ofMag_natCast (jsNumeral neg m e h).neg hsmall).2
      rw [hmag] at hread
      rw [hread, hn] at hval
      have hval : n = (jsNumeral neg m e h).toInt := by
        unfold Numeral.toInt
        split_ifs at hval ⊢ <;> exact_mod_cast hval
      rw [← hval] at hlt
      omega
    · exact .inr (by rw [hread])

end

end QuickjsDart
