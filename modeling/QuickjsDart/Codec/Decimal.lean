import QuickjsDart.Codec.Binary64

/-!
# Decimal digits

A positive rational rounded to `n` significant decimal digits, as `printf` writes it in scientific
notation. `roundMag_sci_seventeen` says that 17 digits determine a binary64 number, and
`sci_stripZeros` that trailing zeros may be left out.
-/

namespace Codec

/-- The rational that `n` digits `D` with the decimal exponent `k` of the first one stand for. -/
def sciVal (n D : ℕ) (k : ℤ) : ℚ := D * 10 ^ (k - n + 1)

/-- A positive rational rounded to `n` digits: the digits as a number, and the exponent of the first
one. Rounding up to a power of ten moves the exponent. -/
def sci (n : ℕ) (x : ℚ) : ℕ × ℤ :=
  let k := Int.log 10 x
  let D := roundHalfEven (x / 10 ^ (k - n + 1))
  if D = 10 ^ n then (10 ^ (n - 1), k + 1) else (D, k)

/-- The number of digits left when the trailing zeros of the `n` digits `D` are left out, the first
digit excepted. -/
def stripZeros : ℕ → ℕ → ℕ
  | 0, _ => 0
  | 1, _ => 1
  | n + 2, D => if D % 10 = 0 then stripZeros (n + 1) (D / 10) else n + 2

/-- The value of the rounded digits, the move of the exponent left out. -/
theorem sciVal_sci {n : ℕ} (hn : 0 < n) (x : ℚ) :
    sciVal n (sci n x).1 (sci n x).2
      = roundHalfEven (x / 10 ^ (Int.log 10 x - n + 1)) * 10 ^ (Int.log 10 x - n + 1) := by
  unfold sci
  dsimp only
  split_ifs with h
  · obtain ⟨m, rfl⟩ : ∃ m, n = m + 1 := ⟨n - 1, by omega⟩
    rw [h, sciVal, Nat.add_sub_cancel,
      show Int.log 10 x + 1 - ((m + 1 : ℕ) : ℤ) + 1
        = Int.log 10 x - ((m + 1 : ℕ) : ℤ) + 1 + 1 by ring,
      zpow_add₀ (by norm_num) _ 1]
    push_cast
    ring
  · rfl

/-- The rounded digits are within half a unit of the last one. -/
theorem abs_sub_sciVal_le {n : ℕ} (hn : 0 < n) {x : ℚ} (hx : 0 < x) :
    |x - sciVal n (sci n x).1 (sci n x).2| ≤ 10 ^ (Int.log 10 x - n + 1) / 2 := by
  have hu : (0 : ℚ) < 10 ^ (Int.log 10 x - n + 1) := by positivity
  have hr := abs_sub_roundHalfEven_le (q := x / 10 ^ (Int.log 10 x - n + 1)) (by positivity)
  rw [sciVal_sci hn]
  have heq : x - roundHalfEven (x / 10 ^ (Int.log 10 x - n + 1)) * 10 ^ (Int.log 10 x - n + 1)
      = (x / 10 ^ (Int.log 10 x - n + 1) - roundHalfEven (x / 10 ^ (Int.log 10 x - n + 1)))
        * 10 ^ (Int.log 10 x - n + 1) := by
    field_simp
  rw [heq, abs_mul, abs_of_pos hu]
  nlinarith

/-- The digits are at most `n`. -/
theorem sci_fst_lt {n : ℕ} (hn : 0 < n) {x : ℚ} (hx : 0 < x) : (sci n x).1 < 10 ^ n := by
  have hlog : x < 10 ^ (Int.log 10 x + 1) := by
    have := Int.lt_zpow_succ_log_self (b := 10) (by norm_num) x
    exact_mod_cast this
  have hq : x / 10 ^ (Int.log 10 x - n + 1) ≤ ((10 ^ n : ℕ) : ℚ) := by
    rw [div_le_iff₀ (by positivity)]
    push_cast
    rw [← zpow_natCast, ← zpow_add₀ (by norm_num)]
    refine hlog.le.trans_eq ?_
    congr 1
    ring
  have hle := roundHalfEven_le (q := x / 10 ^ (Int.log 10 x - n + 1)) (by positivity) hq
  unfold sci
  dsimp only
  split_ifs with h
  · exact Nat.pow_lt_pow_right (by norm_num) (by omega)
  · exact lt_of_le_of_ne hle h

/-- The value of digits is not negative. -/
theorem sciVal_nonneg (n D : ℕ) (k : ℤ) : 0 ≤ sciVal n D k := by unfold sciVal; positivity

/-- **Seventeen digits determine a number.** -/
theorem roundMag_sci_seventeen {m : ℕ} {e : ℤ} (hc : Canonical m e) (hm : 0 < m) :
    Binary64.roundMag (sciVal 17 (sci 17 (mag m e)).1 (sci 17 (mag m e)).2) = (m, e) := by
  have hx : 0 < mag m e := by unfold mag; positivity
  refine Binary64.roundMag_eq_of_close hc (sciVal_nonneg _ _ _) ?_
  have hclose := abs_sub_sciVal_le (n := 17) (by norm_num) hx
  have hlog : (10 : ℚ) ^ Int.log 10 (mag m e) ≤ mag m e := by
    have := Int.zpow_log_le_self (b := 10) (by norm_num) hx
    exact_mod_cast this
  have hpow : (10 : ℚ) ^ (Int.log 10 (mag m e) - (17 : ℕ) + 1)
      = 10 ^ Int.log 10 (mag m e) / 10 ^ 16 := by
    rw [show Int.log 10 (mag m e) - ((17 : ℕ) : ℤ) + 1 = Int.log 10 (mag m e) - (16 : ℕ) by
      push_cast; ring, zpow_sub₀ (by norm_num), zpow_natCast]
  rw [hpow] at hclose
  rw [abs_sub_comm]
  refine hclose.trans_lt ?_
  rw [div_div, div_lt_div_iff₀ (by positivity) (by positivity)]
  nlinarith

/-- Leaving out one trailing zero. -/
theorem sci_of_mod_eq_zero (n : ℕ) {x : ℚ} (hx : 0 < x) (h : (sci (n + 2) x).1 % 10 = 0) :
    sci (n + 1) x = ((sci (n + 2) x).1 / 10, (sci (n + 2) x).2) := by
  set k := Int.log 10 x with hk
  set q := x / 10 ^ (k - (n + 2 : ℕ) + 1) with hq
  have hq0 : 0 ≤ q := by positivity
  have hq' : x / 10 ^ (k - (n + 1 : ℕ) + 1) = q / 10 := by
    rw [hq, show k - ((n + 1 : ℕ) : ℤ) + 1 = k - ((n + 2 : ℕ) : ℤ) + 1 + 1 by push_cast; ring,
      zpow_add₀ (by norm_num) _ 1, zpow_one, div_div]
  have hr := abs_le.1 (abs_sub_roundHalfEven_le hq0)
  -- a multiple of ten near `q` is ten times a natural number near `q / 10`
  have hnear : ∀ E : ℕ, roundHalfEven q = 10 * E → roundHalfEven (q / 10) = E := by
    intro E hE
    rw [hE] at hr
    push_cast at hr
    refine roundHalfEven_of_close (by positivity) (abs_lt.2 ⟨?_, ?_⟩) <;> linarith
  unfold sci at h ⊢
  dsimp only at h ⊢
  rw [← hk, ← hq] at h ⊢
  rw [hq']
  by_cases hcarry : roundHalfEven q = 10 ^ (n + 2)
  · have hE := hnear (10 ^ (n + 1)) (by rw [hcarry, pow_succ'])
    simp only [hcarry, hE, if_true]
    refine Prod.ext ?_ rfl
    show 10 ^ n = 10 ^ (n + 1) / 10
    rw [pow_succ, Nat.mul_div_cancel _ (by norm_num)]
  · simp only [if_neg hcarry] at h ⊢
    have hE := hnear (roundHalfEven q / 10) (by omega)
    have hne : roundHalfEven (q / 10) ≠ 10 ^ (n + 1) := by
      intro he
      rw [hE] at he
      exact hcarry (by rw [pow_succ]; omega)
    rw [if_neg hne, hE]

/-- Leaving out the trailing zeros leaves the value as it is. -/
theorem sci_stripZeros {n : ℕ} (hn : 0 < n) {x : ℚ} (hx : 0 < x) :
    sciVal (stripZeros n (sci n x).1) (sci (stripZeros n (sci n x).1) x).1
        (sci (stripZeros n (sci n x).1) x).2
      = sciVal n (sci n x).1 (sci n x).2 := by
  induction n with
  | zero => exact absurd hn (lt_irrefl 0)
  | succ n ih =>
    cases n with
    | zero => rfl
    | succ n =>
      rw [stripZeros]
      split_ifs with h
      · have hstep := sci_of_mod_eq_zero n hx h
        have hfst : (sci (n + 1) x).1 = (sci (n + 2) x).1 / 10 := by rw [hstep]
        rw [← hfst, ih (Nat.succ_pos n), hstep]
        dsimp only
        obtain ⟨E, hE⟩ : ∃ E, (sci (n + 2) x).1 = 10 * E := Nat.dvd_of_mod_eq_zero h
        rw [show n + 1 + 1 = n + 2 from rfl, hE, Nat.mul_div_cancel_left _ (by norm_num), sciVal,
          sciVal, show (sci (n + 2) x).2 - ((n + 1 : ℕ) : ℤ) + 1
            = (sci (n + 2) x).2 - ((n + 2 : ℕ) : ℤ) + 1 + 1 by push_cast; ring,
          zpow_add₀ (by norm_num) _ 1]
        push_cast
        ring
      · rfl

/-- A number stays positive without its trailing zeros. -/
theorem stripZeros_pos {n : ℕ} (hn : 0 < n) (D : ℕ) : 0 < stripZeros n D := by
  induction n, D using stripZeros.induct with
  | case1 => exact hn
  | case2 => exact Nat.one_pos
  | case3 n D h ih =>
    rw [stripZeros, if_pos h]
    exact ih (Nat.succ_pos n)
  | case4 n D h =>
    rw [stripZeros, if_neg h]
    exact hn

end Codec
