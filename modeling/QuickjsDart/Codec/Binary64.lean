import Mathlib

/-!
# Binary64 numbers

IEEE 754 binary64 as sign, significand and exponent, with the significand's range carried by the
value. `ofRat` rounds a rational to the nearest number, ties to even.

`roundMag_eq_of_close` is the one fact about rounding from which the others come: a rational within
a relative distance of `2 ^ -54` of a number rounds to that number. So rounding is exact on the
numbers themselves (`ofRat_toRat`) and on the integers below `2 ^ 53` (`toRat_ofInt`), and a decimal
of 17 digits is close enough.
-/

namespace Codec

/-! ## Rounding to a natural number -/

/-- The natural number nearest to a nonnegative rational, ties to even. -/
def roundHalfEven (q : ℚ) : ℕ :=
  let n := ⌊q⌋₊
  if q - n < 1 / 2 then n
  else if 1 / 2 < q - n then n + 1
  else if n % 2 = 0 then n
  else n + 1

/-- What lies within one half of a natural number rounds to it. -/
theorem roundHalfEven_of_close {q : ℚ} (hq : 0 ≤ q) {n : ℕ} (h : |q - n| < 1 / 2) :
    roundHalfEven q = n := by
  obtain ⟨hlo, hhi⟩ := abs_lt.1 h
  rcases le_or_gt (n : ℚ) q with hn | hn
  · have hfl : ⌊q⌋₊ = n := (Nat.floor_eq_iff hq).2 ⟨hn, by linarith⟩
    simp only [roundHalfEven, hfl]
    rw [if_pos (by linarith)]
  · have hpos : n ≠ 0 := by
      rintro rfl
      exact absurd hq (not_le.2 (by simpa using hn))
    obtain ⟨k, rfl⟩ := Nat.exists_eq_succ_of_ne_zero hpos
    push_cast at hlo hhi hn
    have hfl : ⌊q⌋₊ = k := (Nat.floor_eq_iff hq).2 ⟨by linarith, by linarith⟩
    simp only [roundHalfEven, hfl]
    rw [if_neg (by linarith), if_pos (by linarith)]

/-- Rounding moves by at most one half. -/
theorem abs_sub_roundHalfEven_le {q : ℚ} (hq : 0 ≤ q) : |q - roundHalfEven q| ≤ 1 / 2 := by
  have hlo : (⌊q⌋₊ : ℚ) ≤ q := Nat.floor_le hq
  have hhi : q < ⌊q⌋₊ + 1 := Nat.lt_floor_add_one q
  unfold roundHalfEven
  dsimp only
  split_ifs <;> rw [abs_le] <;> push_cast <;> constructor <;> linarith

/-- Rounding does not cross a natural number from above. -/
theorem le_roundHalfEven {q : ℚ} {n : ℕ} (h : (n : ℚ) ≤ q) : n ≤ roundHalfEven q := by
  have hfl : n ≤ ⌊q⌋₊ := Nat.le_floor h
  unfold roundHalfEven
  dsimp only
  split_ifs <;> omega

/-- Rounding does not cross a natural number from below. -/
theorem roundHalfEven_le {q : ℚ} (hq : 0 ≤ q) {n : ℕ} (h : q ≤ n) : roundHalfEven q ≤ n := by
  rcases h.lt_or_eq with hlt | rfl
  · have hfl : ⌊q⌋₊ < n := (Nat.floor_lt hq).2 hlt
    unfold roundHalfEven
    dsimp only
    split_ifs <;> omega
  · exact (roundHalfEven_of_close hq (by simp)).le

/-! ## Numbers -/

/-- The significand and exponent of a finite number: 53 bits, normalised unless the exponent is
the smallest. -/
structure Canonical (m : ℕ) (e : ℤ) : Prop where
  lt : m < 2 ^ 53
  lo : -1074 ≤ e
  hi : e ≤ 971
  norm : 2 ^ 52 ≤ m ∨ e = -1074

instance (m : ℕ) (e : ℤ) : Decidable (Canonical m e) :=
  decidable_of_iff (m < 2 ^ 53 ∧ -1074 ≤ e ∧ e ≤ 971 ∧ (2 ^ 52 ≤ m ∨ e = -1074))
    ⟨fun h => ⟨h.1, h.2.1, h.2.2.1, h.2.2.2⟩, fun h => ⟨h.lt, h.lo, h.hi, h.norm⟩⟩

/-- A binary64 number. -/
inductive Binary64 where
  | nan
  | inf (neg : Bool)
  | fin (neg : Bool) (m : ℕ) (e : ℤ) (h : Canonical m e)
  deriving DecidableEq

/-- The magnitude of a significand and an exponent. -/
def mag (m : ℕ) (e : ℤ) : ℚ := m * 2 ^ e

namespace Binary64

/-- A finite number. -/
def isFinite : Binary64 → Bool
  | fin _ _ _ _ => true
  | _ => false

/-- The value of a finite number, and zero for the others. -/
def toRat : Binary64 → ℚ
  | fin neg m e _ => if neg then -mag m e else mag m e
  | _ => 0

/-- The exponent a positive rational is rounded at. -/
def expOf (x : ℚ) : ℤ := if x = 0 then -1074 else max (Int.log 2 x - 52) (-1074)

/-- The significand and exponent nearest to a nonnegative rational. -/
def roundMag (x : ℚ) : ℕ × ℤ :=
  let e := expOf x
  let m := roundHalfEven (x / 2 ^ e)
  if m = 2 ^ 53 then (2 ^ 52, e + 1) else (m, e)

/-- The number nearest to a magnitude, or infinity. -/
def ofMag (neg : Bool) (x : ℚ) : Binary64 :=
  if h : Canonical (roundMag x).1 (roundMag x).2 then fin neg (roundMag x).1 (roundMag x).2 h
  else inf neg

/-- The number nearest to a rational. -/
def ofRat (x : ℚ) : Binary64 := if x < 0 then ofMag true (-x) else ofMag false x

/-- The number nearest to an integer. -/
def ofInt (n : ℤ) : Binary64 := ofRat n

/-- The value is an integer. -/
def isInt (d : Binary64) : Bool := d.isFinite && decide (d.toRat.den = 1)

/-- The value with its fraction cut off, and zero for what is not finite. -/
def trunc (d : Binary64) : ℤ := if d.toRat < 0 then -⌊-d.toRat⌋ else ⌊d.toRat⌋

/-! ## Rounding is exact near a number -/

/-- A magnitude is not negative. -/
theorem mag_nonneg (m : ℕ) (e : ℤ) : 0 ≤ mag m e := by unfold mag; positivity

/-- The exponent of a normal magnitude. -/
theorem log_eq {x : ℚ} {k : ℤ} (hlo : 2 ^ k ≤ x) (hhi : x < 2 ^ (k + 1)) : Int.log 2 x = k := by
  have hx : 0 < x := lt_of_lt_of_le (by positivity) hlo
  have h₁ : k ≤ Int.log 2 x := (Int.zpow_le_iff_le_log (by norm_num) hx).1 (by exact_mod_cast hlo)
  have h₂ : Int.log 2 x < k + 1 :=
    (Int.lt_zpow_iff_log_lt (by norm_num) hx).1 (by exact_mod_cast hhi)
  omega

/-- Rounding at the exponent `e` a magnitude that lies within half a unit of `m`. -/
theorem roundMag_of_expOf {x : ℚ} {m : ℕ} {e : ℤ} (hx : 0 ≤ x) (he : expOf x = e)
    (hm : m ≠ 2 ^ 53) (hclose : |x - mag m e| < 2 ^ e / 2) : roundMag x = (m, e) := by
  have hu : (0 : ℚ) < 2 ^ e := by positivity
  have hq : |x / 2 ^ e - m| < 1 / 2 := by
    have heq : x / 2 ^ e - m = (x - mag m e) / 2 ^ e := by
      unfold mag
      field_simp
    rw [heq, abs_div, abs_of_pos hu, div_lt_iff₀ hu]
    linarith
  have hr : roundHalfEven (x / 2 ^ e) = m := roundHalfEven_of_close (by positivity) hq
  simp only [roundMag, he, hr, if_neg hm]

/-- A power of two, in two parts. -/
theorem two_zpow_add (e : ℤ) (k : ℕ) : (2 : ℚ) ^ (e + k) = 2 ^ e * 2 ^ k := by
  rw [zpow_add₀ (by norm_num), zpow_natCast]

/-- Just below a power of two the exponent is one less, and the significand is rounded up to
`2 ^ 53`. -/
theorem roundMag_below_pow {e : ℤ} (hmin : -1074 < e) {x : ℚ} (hbelow : x < 2 ^ e * 2 ^ 52)
    (hclose : 2 ^ e * 2 ^ 52 - x < 2 ^ e / 4) : roundMag x = (2 ^ 52, e) := by
  have hu : (0 : ℚ) < 2 ^ e := by positivity
  have hx51 : (2 : ℚ) ^ (e + 51) ≤ x := by
    rw [show e + 51 = e + (51 : ℕ) by norm_num, two_zpow_add]
    linarith
  have hpos : 0 < x := lt_of_lt_of_le (by positivity) hx51
  have hlog : Int.log 2 x = e + 51 := by
    refine log_eq hx51 ?_
    rw [show e + 51 + 1 = e + (52 : ℕ) by ring, two_zpow_add]
    exact hbelow
  have he : expOf x = e - 1 := by
    rw [expOf, if_neg hpos.ne', hlog]
    omega
  have hpred : (2 : ℚ) ^ (e - 1) = 2 ^ e / 2 := by
    rw [zpow_sub₀ (by norm_num), zpow_one]
  have hr : roundHalfEven (x / 2 ^ (e - 1)) = 2 ^ 53 := by
    refine roundHalfEven_of_close (by positivity) ?_
    have heq : x / 2 ^ (e - 1) - ((2 ^ 53 : ℕ) : ℚ) = (x - 2 ^ e * 2 ^ 52) / (2 ^ e / 2) := by
      rw [hpred]
      field_simp
      push_cast
      ring
    rw [heq, abs_div, abs_of_pos (by positivity : (0 : ℚ) < 2 ^ e / 2),
      div_lt_iff₀ (by positivity), abs_lt]
    exact ⟨by linarith, by linarith⟩
  simp only [roundMag, he, hr, if_pos, sub_add_cancel]

/-- **Rounding near a number.** A rational within a relative distance of `2 ^ -54` of a number
rounds to it. Just below a power of two the numbers are twice as dense, which is why `2 ^ -53` would
not do. -/
theorem roundMag_eq_of_close {m : ℕ} {e : ℤ} (hc : Canonical m e) {x : ℚ} (hx : 0 ≤ x)
    (hclose : |x - mag m e| < mag m e / 2 ^ 54) : roundMag x = (m, e) := by
  have hu : (0 : ℚ) < 2 ^ e := by positivity
  have hm : (m : ℚ) + 1 ≤ 2 ^ 53 := by exact_mod_cast hc.lt
  have hd : mag m e = m * 2 ^ e := rfl
  have hhalf : |x - mag m e| < 2 ^ e / 2 := by
    refine hclose.trans_le ?_
    rw [hd, div_le_div_iff₀ (by positivity) (by positivity)]
    nlinarith
  obtain ⟨hlo, hhi⟩ := abs_lt.1 hhalf
  have hx0 : x ≠ 0 := by
    rintro rfl
    rw [zero_sub, abs_neg, abs_of_nonneg (mag_nonneg m e)] at hclose
    have := mag_nonneg m e
    have : mag m e / 2 ^ 54 ≤ mag m e := div_le_self this (by norm_num)
    linarith
  have hpos : 0 < x := lt_of_le_of_ne hx (Ne.symm hx0)
  have hxhi : x < 2 ^ (e + 53) := by
    rw [show e + 53 = e + (53 : ℕ) by norm_num, two_zpow_add]
    nlinarith
  have hne : m ≠ 2 ^ 53 := hc.lt.ne
  rcases le_or_gt ((2 : ℚ) ^ (e + 52)) x with hbin | hbin
  · -- in the same binade
    have hlog : Int.log 2 x = e + 52 := log_eq hbin (by rwa [add_assoc])
    have he : expOf x = e := by
      rw [expOf, if_neg hx0, hlog]
      have := hc.lo
      omega
    exact roundMag_of_expOf hx he hne hhalf
  · have hlog : Int.log 2 x < e + 52 :=
      (Int.lt_zpow_iff_log_lt (by norm_num) hpos).1 (by exact_mod_cast hbin)
    rcases eq_or_lt_of_le hc.lo with hmin | hmin
    · -- subnormal
      have he : expOf x = e := by
        rw [expOf, if_neg hx0]
        omega
      exact roundMag_of_expOf hx he hne hhalf
    · -- just below the power of two that the number is
      have hm52 : 2 ^ 52 ≤ m := hc.norm.resolve_right hmin.ne'
      rw [show e + 52 = e + (52 : ℕ) by norm_num, two_zpow_add] at hbin
      have hm' : m = 2 ^ 52 := by
        by_contra hcon
        have : 2 ^ 52 + 1 ≤ m := by omega
        have : (2 ^ 52 + 1 : ℚ) ≤ m := by exact_mod_cast this
        nlinarith
      have hpow : mag m e = 2 ^ e * 2 ^ 52 := by
        rw [hd, hm', mul_comm]
        norm_num
      obtain ⟨hlo', -⟩ := abs_lt.1 hclose
      rw [hpow] at hlo'
      rw [hm']
      exact roundMag_below_pow hmin hbin (by linarith)

/-- A finite magnitude rounds to itself. -/
theorem roundMag_mag {m : ℕ} {e : ℤ} (hc : Canonical m e) : roundMag (mag m e) = (m, e) := by
  rcases Nat.eq_zero_or_pos m with rfl | hm
  · have he : e = -1074 := hc.norm.resolve_left (by norm_num)
    have hz : mag 0 e = 0 := by simp [mag]
    have hexp : expOf 0 = e := by rw [expOf, if_pos rfl, he]
    rw [hz]
    exact roundMag_of_expOf le_rfl hexp (by norm_num) (by rw [hz]; simp; positivity)
  · refine roundMag_eq_of_close hc (mag_nonneg m e) ?_
    have : 0 < mag m e := by unfold mag; positivity
    simpa using this

/-- A magnitude that rounds to a canonical one is that double. -/
theorem ofMag_of_roundMag {m : ℕ} {e : ℤ} (hc : Canonical m e) {x : ℚ} (h : roundMag x = (m, e))
    (neg : Bool) : ofMag neg x = fin neg m e hc := by
  simp only [ofMag, h, dif_pos hc]

/-- A rational close to a number other than zero rounds to it. -/
theorem ofRat_eq_of_close {d : Binary64} (hd : d.isFinite) {x : ℚ}
    (hclose : |x - d.toRat| < |d.toRat| / 2 ^ 54) : ofRat x = d := by
  cases d with
  | nan => simp [isFinite] at hd
  | inf neg => simp [isFinite] at hd
  | fin neg m e hc =>
    have hmag := mag_nonneg m e
    cases neg with
    | false =>
      simp only [toRat, Bool.false_eq_true, if_false, abs_of_nonneg hmag] at hclose
      have hx : 0 ≤ x := by
        obtain ⟨hlo, -⟩ := abs_lt.1 hclose
        have : mag m e / 2 ^ 54 ≤ mag m e := div_le_self hmag (by norm_num)
        linarith
      rw [ofRat, if_neg (not_lt.2 hx)]
      exact ofMag_of_roundMag hc (roundMag_eq_of_close hc hx hclose) false
    | true =>
      simp only [toRat, if_true, abs_neg, abs_of_nonneg hmag] at hclose
      have hx : x < 0 := by
        obtain ⟨-, hhi⟩ := abs_lt.1 hclose
        have hpos : 0 < mag m e / 2 ^ 54 := lt_of_le_of_lt (abs_nonneg _) hclose
        have : mag m e / 2 ^ 54 < mag m e := by
          have : 0 < mag m e :=
            (div_pos_iff_of_pos_right (a := mag m e) (b := 2 ^ 54) (by norm_num)).1 hpos
          exact div_lt_self this (by norm_num)
        linarith
      rw [ofRat, if_pos hx]
      refine ofMag_of_roundMag hc (roundMag_eq_of_close hc (by linarith) ?_) true
      rwa [← abs_neg, neg_sub, sub_neg_eq_add, add_comm, ← sub_neg_eq_add]

/-- A number other than zero is what its value rounds to. -/
theorem ofRat_toRat {d : Binary64} (hd : d.isFinite) (h₀ : d.toRat ≠ 0) : ofRat d.toRat = d := by
  refine ofRat_eq_of_close hd ?_
  have : 0 < |d.toRat| := abs_pos.2 h₀
  simpa using this

/-! ## Integers -/

/-- A positive integer below `2 ^ 53` has a significand and an exponent. -/
theorem exists_canonical {n : ℕ} (h₀ : 0 < n) (h : n < 2 ^ 53) :
    ∃ m e, Canonical m e ∧ mag m e = n := by
  have hlog : Nat.log 2 n ≤ 52 := by
    have := Nat.log_lt_of_lt_pow h₀.ne' h
    omega
  have hlo : 2 ^ Nat.log 2 n ≤ n := Nat.pow_log_le_self 2 h₀.ne'
  have hhi : n < 2 ^ (Nat.log 2 n + 1) := Nat.lt_pow_succ_log_self (by norm_num) n
  set k := Nat.log 2 n
  refine ⟨n * 2 ^ (52 - k), (k : ℤ) - 52, ⟨?_, by omega, by omega, .inl ?_⟩, ?_⟩
  · calc n * 2 ^ (52 - k) < 2 ^ (k + 1) * 2 ^ (52 - k) := by gcongr
      _ = 2 ^ 53 := by rw [← pow_add]; congr 1; omega
  · calc 2 ^ 52 = 2 ^ k * 2 ^ (52 - k) := by rw [← pow_add]; congr 1; omega
      _ ≤ n * 2 ^ (52 - k) := by gcongr
  · have hexp : (k : ℤ) - 52 = -((52 - k : ℕ) : ℤ) := by omega
    rw [mag, hexp, zpow_neg, zpow_natCast]
    push_cast
    field_simp

/-- Integers below `2 ^ 53` are exact. -/
theorem toRat_ofInt {n : ℤ} (h : |n| < 2 ^ 53) :
    (ofInt n).isFinite = true ∧ (ofInt n).toRat = n := by
  rcases eq_or_ne n 0 with rfl | hn
  · have hc : Canonical 0 (-1074) := ⟨by norm_num, le_rfl, by norm_num, .inr rfl⟩
    have hz : mag 0 (-1074) = 0 := by simp [mag]
    have hr : roundMag 0 = (0, -1074) := by
      have := roundMag_mag hc
      rwa [hz] at this
    have he : ofInt 0 = fin false 0 (-1074) hc := by
      rw [ofInt, ofRat, if_neg (by simp), Int.cast_zero]
      exact ofMag_of_roundMag hc hr false
    rw [he]
    exact ⟨rfl, by simp [toRat, hz]⟩
  · have hlt : n.natAbs < 2 ^ 53 := by
      rw [Int.abs_eq_natAbs] at h
      exact_mod_cast h
    obtain ⟨m, e, hc, hm⟩ := exists_canonical (Int.natAbs_pos.2 hn) hlt
    have habs : ((n.natAbs : ℕ) : ℚ) = |(n : ℚ)| := by
      rw [Nat.cast_natAbs, Int.cast_abs]
    rw [habs] at hm
    have hval : (fin (decide (n < 0)) m e hc).toRat = n := by
      rcases lt_or_gt_of_ne hn with hneg | hpos
      · have : (n : ℚ) < 0 := by exact_mod_cast hneg
        simp [toRat, hneg, hm, abs_of_neg this]
      · have : (0 : ℚ) < n := by exact_mod_cast hpos
        simp [toRat, not_lt.2 hpos.le, hm, abs_of_pos this]
    have he : ofInt n = fin (decide (n < 0)) m e hc := by
      rw [ofInt, ← hval]
      refine ofRat_toRat rfl ?_
      rw [hval]
      exact_mod_cast hn
    rw [he]
    exact ⟨rfl, hval⟩

/-- Rounding does not cross a power of two from above. -/
theorem le_mag_roundMag {x : ℚ} {k : ℕ} (h : (2 : ℚ) ^ k ≤ x) :
    (2 : ℚ) ^ k ≤ mag (roundMag x).1 (roundMag x).2 := by
  have hx : 0 < x := lt_of_lt_of_le (by positivity) h
  have hlog : (k : ℤ) ≤ Int.log 2 x :=
    (Int.zpow_le_iff_le_log (by norm_num) hx).1 (by exact_mod_cast h)
  have he : expOf x = Int.log 2 x - 52 := by
    rw [expOf, if_neg hx.ne']
    omega
  have hm : 2 ^ 52 ≤ roundHalfEven (x / 2 ^ expOf x) := by
    refine le_roundHalfEven ?_
    rw [le_div_iff₀ (by positivity), he, zpow_sub₀ (by norm_num)]
    have := Int.zpow_log_le_self (b := 2) (by norm_num) hx
    push_cast at this ⊢
    rw [mul_div_cancel₀ _ (by norm_num)]
    exact this
  have hpow : (2 : ℚ) ^ k ≤ 2 ^ 52 * 2 ^ expOf x := by
    rw [he, ← zpow_natCast, ← zpow_natCast, ← zpow_add₀ (by norm_num)]
    exact zpow_le_zpow_right₀ (by norm_num) (by push_cast; omega)
  unfold roundMag
  dsimp only
  split_ifs with h53
  · refine hpow.trans ?_
    rw [mag, zpow_add₀ (by norm_num), zpow_one]
    push_cast
    have : (0 : ℚ) < 2 ^ expOf x := by positivity
    nlinarith
  · refine hpow.trans ?_
    rw [mag]
    gcongr
    exact_mod_cast hm

/-- An integer from `2 ^ 53` on becomes a number at least as large, or infinity. -/
theorem le_abs_toRat_ofInt {n : ℤ} (h : 2 ^ 53 ≤ |n|) (hfin : (ofInt n).isFinite) :
    2 ^ 53 ≤ |(ofInt n).toRat| := by
  have hmag : ∀ neg x, (2 : ℚ) ^ 53 ≤ x → (ofMag neg x).isFinite →
      (2 : ℚ) ^ 53 ≤ |(ofMag neg x).toRat| := by
    intro neg x hx hf
    have hle := le_mag_roundMag hx
    unfold ofMag at hf ⊢
    split_ifs at hf ⊢ with hc
    · cases neg <;> simpa [toRat, abs_of_nonneg (mag_nonneg _ _)] using hle
    · simp [isFinite] at hf
  have hq : (2 : ℚ) ^ 53 ≤ |(n : ℚ)| := by exact_mod_cast h
  unfold ofInt ofRat at hfin ⊢
  split_ifs at hfin ⊢ with hneg
  · exact hmag true _ (by rwa [abs_of_neg hneg] at hq) hfin
  · exact hmag false _ (by rwa [abs_of_nonneg (not_lt.1 hneg)] at hq) hfin

/-- A number is integral exactly when it is finite with an integer for its value. -/
theorem isInt_iff (d : Binary64) : d.isInt = true ↔ d.isFinite = true ∧ ∃ n : ℤ, d.toRat = n := by
  rw [isInt, Bool.and_eq_true, decide_eq_true_iff]
  refine and_congr_right fun _ => ⟨fun h => ⟨d.toRat.num, ?_⟩, ?_⟩
  · exact (Rat.den_eq_one_iff _).1 h |>.symm
  · rintro ⟨n, hn⟩
    rw [hn]
    exact Rat.den_intCast n

/-- Cutting the fraction off an integral number keeps its value. -/
theorem trunc_of_toRat {d : Binary64} {n : ℤ} (h : d.toRat = n) : d.trunc = n := by
  rw [trunc, h, ← Int.cast_neg, Int.floor_intCast, Int.floor_intCast, neg_neg]
  split_ifs <;> rfl

/-- An integer below `2 ^ 53` comes back. -/
theorem trunc_ofInt {n : ℤ} (h : |n| < 2 ^ 53) : (ofInt n).trunc = n :=
  trunc_of_toRat (toRat_ofInt h).2

/-- An integer below `2 ^ 53` is integral. -/
theorem isInt_ofInt {n : ℤ} (h : |n| < 2 ^ 53) : (ofInt n).isInt = true :=
  (isInt_iff _).2 ⟨(toRat_ofInt h).1, n, (toRat_ofInt h).2⟩

/-- A finite number from `2 ^ 53` on is integral: its last bit is worth at least one. -/
theorem isInt_of_le {d : Binary64} (hd : d.isFinite) (h : 2 ^ 53 ≤ |d.toRat|) : d.isInt = true := by
  cases d with
  | nan => simp [isFinite] at hd
  | inf neg => simp [isFinite] at hd
  | fin neg m e hc =>
    have hmag : (2 : ℚ) ^ 53 ≤ mag m e := by
      cases neg <;> simpa [toRat, abs_of_nonneg (mag_nonneg _ _)] using h
    have he : 0 ≤ e := by
      by_contra hneg
      have h₁ : (2 : ℚ) ^ e ≤ 1 := zpow_le_one_of_nonpos₀ (by norm_num) (by omega)
      have h₂ : (m : ℚ) < 2 ^ 53 := by exact_mod_cast hc.lt
      have h₃ : mag m e ≤ m := by
        unfold mag
        exact mul_le_of_le_one_right (by positivity) h₁
      linarith
    obtain ⟨k, rfl⟩ := Int.eq_ofNat_of_zero_le he
    refine (isInt_iff _).2 ⟨rfl, if neg then -(m * 2 ^ k : ℕ) else (m * 2 ^ k : ℕ), ?_⟩
    cases neg <;> simp [toRat, mag]

/-- The sign of a magnitude does not take part in rounding. -/
theorem ofMag_true (x : ℚ) :
    (ofMag true x).isFinite = (ofMag false x).isFinite ∧
      (ofMag true x).toRat = -(ofMag false x).toRat := by
  unfold ofMag
  split_ifs <;> simp [isFinite, toRat]

/-- A natural number below `2 ^ 53` is exact under either sign. -/
theorem toRat_ofMag_natCast (neg : Bool) {n : ℕ} (h : n < 2 ^ 53) :
    (ofMag neg n).isFinite = true ∧ (ofMag neg n).toRat = if neg then -(n : ℚ) else n := by
  have habs : |(n : ℤ)| < 2 ^ 53 := by
    rw [Nat.abs_cast]
    exact_mod_cast h
  obtain ⟨hfin, hval⟩ := toRat_ofInt habs
  have hpos : ofInt n = ofMag false n := by
    rw [ofInt, ofRat, if_neg (by simp), Int.cast_natCast]
  rw [hpos] at hfin hval
  cases neg with
  | false => exact ⟨hfin, by simpa using hval⟩
  | true =>
    obtain ⟨hf, hv⟩ := ofMag_true (n : ℚ)
    refine ⟨by rw [hf, hfin], ?_⟩
    rw [hv, hval]
    simp

/-- A natural number from `2 ^ 53` on is rounded to a number that is at least as large. -/
theorem le_abs_toRat_ofMag_natCast (neg : Bool) {n : ℕ} (h : 2 ^ 53 ≤ n)
    (hfin : (ofMag neg n).isFinite) : 2 ^ 53 ≤ |(ofMag neg n).toRat| := by
  have habs : (2 : ℤ) ^ 53 ≤ |(n : ℤ)| := by
    rw [Nat.abs_cast]
    exact_mod_cast h
  have hpos : ofInt n = ofMag false n := by
    rw [ofInt, ofRat, if_neg (by simp), Int.cast_natCast]
  cases neg with
  | false =>
    rw [← hpos] at hfin ⊢
    exact le_abs_toRat_ofInt habs hfin
  | true =>
    obtain ⟨hf, hv⟩ := ofMag_true (n : ℚ)
    rw [hf, ← hpos] at hfin
    rw [hv, abs_neg, ← hpos]
    exact le_abs_toRat_ofInt habs hfin

/-- A natural number rounds to an integral number. -/
theorem isInt_ofMag_natCast {neg : Bool} {n : ℕ} (hfin : (ofMag neg n).isFinite) :
    (ofMag neg n).isInt = true := by
  rcases lt_or_ge n (2 ^ 53) with h | h
  · refine (isInt_iff _).2 ⟨hfin, if neg then -(n : ℤ) else n, ?_⟩
    rw [(toRat_ofMag_natCast neg h).2]
    cases neg <;> simp
  · exact isInt_of_le hfin (le_abs_toRat_ofMag_natCast neg h hfin)

end Binary64

end Codec
