import Mathlib.Algebra.Order.Field.Power
import Mathlib.Data.Int.Log
import Mathlib.Data.Rat.Floor
import Mathlib.Tactic.FieldSimp
import Mathlib.Tactic.Linarith
import Mathlib.Tactic.NormNum
import BlockFilter.Binary64.Nearest

/-! Correct rounding. The number found for a quotient of natural numbers depends on the value of the
quotient alone, and no number of the format is closer to that value. Later proofs ask nothing else
of rounding. It keeps the order of values and leaves the numbers of the format as they are,
whichever way ties go. -/

namespace BlockFilter

/-! ## Nearest integers -/

/-- The quotient is its floor and the share that the remainder has of the divisor, and the share
lies on the side of one half to which the quotient is rounded. -/
theorem abs_roundDiv_sub_le (tie : Tie) (num : Nat) {den : Nat} (hDen : den ≠ 0) :
    |(roundDiv tie num den : ℚ) - num / den| ≤ 1 / 2 := by
  have hPos : (0 : ℚ) < den := Nat.cast_pos.mpr (Nat.pos_of_ne_zero hDen)
  have hParts : (num : ℚ) = den * (num / den : Nat) + (num % den : Nat) := by
    exact_mod_cast (Nat.div_add_mod num den).symm
  have hQuotient : (num : ℚ) / den = (num / den : Nat) + (num % den : Nat) / den := by
    rw [hParts]
    field_simp
  have hLow : (0 : ℚ) ≤ (num % den : Nat) / den := by positivity
  have hHigh : ((num % den : Nat) : ℚ) / den ≤ 1 := by
    rw [div_le_one hPos]
    exact_mod_cast (Nat.mod_lt num (Nat.pos_of_ne_zero hDen)).le
  rw [hQuotient, abs_le]
  rcases roundDiv_cases tie num den with ⟨hFloor, hHalf⟩ | ⟨hNext, hHalf⟩
  · have hShare : ((num % den : Nat) : ℚ) / den ≤ 1 / 2 := by
      rw [div_le_iff₀ hPos]
      have : (2 : ℚ) * (num % den : Nat) ≤ den := by exact_mod_cast hHalf
      linarith
    rw [hFloor]
    constructor <;> linarith
  · have hShare : (1 / 2 : ℚ) ≤ (num % den : Nat) / den := by
      rw [le_div_iff₀ hPos]
      have : (den : ℚ) ≤ 2 * (num % den : Nat) := by exact_mod_cast hHalf
      linarith
    rw [hNext, Nat.cast_add, Nat.cast_one]
    constructor <;> linarith

theorem roundDiv_mul_right (tie : Tie) (num den : Nat) {factor : Nat} (hFactor : 0 < factor) :
    roundDiv tie (num * factor) (den * factor) = roundDiv tie num den := by
  have hTwice : 2 * (num % den * factor) = 2 * (num % den) * factor := (Nat.mul_assoc ..).symm
  simp only [roundDiv, Nat.mul_div_mul_right _ _ hFactor, Nat.mul_mod_mul_right, hTwice,
    Nat.mul_lt_mul_right hFactor]

/-- Only the value of the quotient matters. -/
theorem roundDiv_congr (tie : Tie) {num den num' den' : Nat} (hDen : den ≠ 0) (hDen' : den' ≠ 0)
    (h : (num : ℚ) / den = num' / den') : roundDiv tie num den = roundDiv tie num' den' := by
  have hCross : num * den' = num' * den := by
    rw [div_eq_div_iff (Nat.cast_ne_zero.mpr hDen) (Nat.cast_ne_zero.mpr hDen')] at h
    exact_mod_cast h
  calc roundDiv tie num den
      = roundDiv tie (num * den') (den * den') :=
        (roundDiv_mul_right tie num den (Nat.pos_of_ne_zero hDen')).symm
    _ = roundDiv tie (num' * den) (den' * den) := by rw [hCross, Nat.mul_comm den]
    _ = roundDiv tie num' den' := roundDiv_mul_right tie num' den' (Nat.pos_of_ne_zero hDen)

/-- The integer nearest to a value that is not negative, a tie going to the even one. -/
def toEven (x : ℚ) : Nat := roundDiv .toEven x.num.toNat x.den

theorem toNat_num_div_den {x : ℚ} (hx : 0 ≤ x) : (x.num.toNat : ℚ) / x.den = x := by
  have hNum : ((x.num.toNat : Int) : ℚ) = x.num := by
    rw [Int.toNat_of_nonneg (Rat.num_nonneg.mpr hx)]
  rw [← Int.cast_natCast, hNum, Rat.num_div_den]

theorem roundDiv_eq_toEven (num : Nat) {den : Nat} (hDen : den ≠ 0) :
    roundDiv .toEven num den = toEven (num / den) := by
  have hQuotient : (0 : ℚ) ≤ num / den := by positivity
  exact roundDiv_congr .toEven hDen (Rat.den_ne_zero _) (toNat_num_div_den hQuotient).symm

theorem abs_toEven_sub_le {x : ℚ} (hx : 0 ≤ x) : |(toEven x : ℚ) - x| ≤ 1 / 2 := by
  have hHalf := abs_roundDiv_sub_le .toEven x.num.toNat x.den_ne_zero
  rwa [toNat_num_div_den hx] at hHalf

theorem toEven_zero : toEven 0 = 0 := rfl

/-- An integer at most half a unit away is a nearest one. -/
theorem abs_sub_le_of_le_half {x : ℚ} {n : ℤ} (h : |(n : ℚ) - x| ≤ 1 / 2) (m : ℤ) :
    |(n : ℚ) - x| ≤ |(m : ℚ) - x| := by
  rcases eq_or_ne m n with rfl | hNe
  · exact le_rfl
  · have hApart : (1 : ℚ) ≤ |(m : ℚ) - n| := by
      exact_mod_cast Int.one_le_abs (sub_ne_zero.mpr hNe)
    have hTriangle := abs_sub_le (m : ℚ) x n
    rw [abs_sub_comm x] at hTriangle
    linarith

/-! ## Scaled quotients -/

namespace Binary64

/-- Numerator and denominator of `num / den / 2 ^ exponent`. -/
def scaled (num den : Nat) (exponent : Int) : Nat × Nat :=
  if 0 ≤ exponent then (num, den <<< exponent.toNat) else (num <<< (-exponent).toNat, den)

theorem scaled_div (num den : Nat) (exponent : Int) :
    ((scaled num den exponent).1 : ℚ) / (scaled num den exponent).2 =
      num / den / 2 ^ exponent := by
  rw [scaled]
  split
  · lift exponent to Nat using ‹0 ≤ exponent›
    rw [Int.toNat_natCast, Nat.shiftLeft_eq, Nat.cast_mul, Nat.cast_pow, Nat.cast_two, zpow_natCast,
      div_div]
  · obtain ⟨k, rfl⟩ : ∃ k : Nat, exponent = -k := ⟨(-exponent).toNat, by omega⟩
    rw [neg_neg, Int.toNat_natCast, Nat.shiftLeft_eq, Nat.cast_mul, Nat.cast_pow, Nat.cast_two,
      zpow_neg, zpow_natCast, div_inv_eq_mul, mul_div_right_comm]

theorem scaled_snd_ne_zero (num : Nat) {den : Nat} (hDen : den ≠ 0) (exponent : Int) :
    (scaled num den exponent).2 ≠ 0 := by
  rw [scaled]
  split
  · exact mt Nat.shiftLeft_eq_zero_iff.mp hDen
  · exact hDen

theorem ratio_eq_scaled (significand : Nat) (exponent : Int) :
    ratio significand exponent = scaled significand 1 (-exponent) := by
  rcases lt_trichotomy exponent 0 with h | rfl | h
  · rw [ratio, scaled, if_neg (by omega), if_pos (by omega)]
  · rfl
  · rw [ratio, scaled, if_pos (by omega), if_neg (by omega), neg_neg]

theorem two_zpow_le_div_iff (num : Nat) {den : Nat} (hDen : den ≠ 0) (exponent : Int) :
    (2 : ℚ) ^ exponent ≤ num / den ↔
      (scaled num den exponent).2 ≤ (scaled num den exponent).1 := by
  have hPower : (0 : ℚ) < 2 ^ exponent := zpow_pos two_pos exponent
  have hScaled : (0 : ℚ) < (scaled num den exponent).2 :=
    Nat.cast_pos.mpr (Nat.pos_of_ne_zero (scaled_snd_ne_zero num hDen exponent))
  rw [← one_le_div hPower, ← scaled_div, one_le_div hScaled, Nat.cast_le]

/-- The lengths of two numbers give the logarithm of their quotient up to one. -/
theorem log_div_bounds {num den : Nat} (hNum : num ≠ 0) (hDen : den ≠ 0) :
    (num.log2 - den.log2 : Int) - 1 ≤ Int.log 2 ((num : ℚ) / den) ∧
      Int.log 2 ((num : ℚ) / den) < num.log2 - den.log2 + 1 := by
  have hNumPos : (0 : ℚ) < num := Nat.cast_pos.mpr (Nat.pos_of_ne_zero hNum)
  have hDenPos : (0 : ℚ) < den := Nat.cast_pos.mpr (Nat.pos_of_ne_zero hDen)
  have hPos : (0 : ℚ) < num / den := div_pos hNumPos hDenPos
  have hNumLow : (2 : ℚ) ^ num.log2 ≤ num := by exact_mod_cast Nat.log2_self_le hNum
  have hNumHigh : (num : ℚ) < 2 ^ (num.log2 + 1) := by exact_mod_cast Nat.lt_log2_self
  have hDenLow : (2 : ℚ) ^ den.log2 ≤ den := by exact_mod_cast Nat.log2_self_le hDen
  have hDenHigh : (den : ℚ) < 2 ^ (den.log2 + 1) := by exact_mod_cast Nat.lt_log2_self
  constructor
  · have hExponent : (num.log2 - den.log2 : Int) - 1 = num.log2 - (den.log2 + 1 : Nat) := by omega
    rw [← Int.zpow_le_iff_le_log one_lt_two hPos, hExponent, Nat.cast_two,
      zpow_natCast_sub_natCast₀ two_ne_zero]
    gcongr
  · have hExponent : (num.log2 - den.log2 : Int) + 1 = (num.log2 + 1 : Nat) - den.log2 := by omega
    rw [← Int.lt_zpow_iff_log_lt one_lt_two hPos, hExponent, Nat.cast_two,
      zpow_natCast_sub_natCast₀ two_ne_zero]
    gcongr

/-- The two candidates are enough, so the exponent is the integer part of the logarithm. -/
theorem binaryExponent_eq_log {num den : Nat} (hNum : num ≠ 0) (hDen : den ≠ 0) :
    binaryExponent num den = Int.log 2 ((num : ℚ) / den) := by
  have hPos : (0 : ℚ) < num / den := by positivity
  obtain ⟨hLow, hHigh⟩ := log_div_bounds hNum hDen
  have hReached := two_zpow_le_div_iff num hDen (num.log2 - den.log2)
  rw [← Nat.cast_two, Int.zpow_le_iff_le_log one_lt_two hPos] at hReached
  have hChoice : binaryExponent num den =
      if (num.log2 - den.log2 : Int) ≤ Int.log 2 ((num : ℚ) / den) then (num.log2 - den.log2 : Int)
      else num.log2 - den.log2 - 1 := by
    simp only [hReached, binaryExponent, scaled]
    split <;> rfl
  rw [hChoice]
  split <;> omega

/-! ## Rounded values -/

/-- The exponent of the last place of the numbers near a value. -/
def lastPlace (x : ℚ) : Int := max minExponent (Int.log 2 x - 52)

/-- The number of the format that stands for a value that is not negative. -/
def rounded (x : ℚ) : ℚ := toEven (x / 2 ^ lastPlace x) * 2 ^ lastPlace x

theorem rounded_zero : rounded 0 = 0 := by
  rw [rounded, zero_div, toEven_zero, Nat.cast_zero, zero_mul]

theorem nearest_eq {num den : Nat} (hNum : num ≠ 0) (hDen : den ≠ 0) :
    nearest num den =
      (toEven (num / den / 2 ^ lastPlace (num / den)), lastPlace (num / den)) := by
  have hScaled : ∀ exponent : Int,
      (if 0 ≤ exponent then roundDiv .toEven num (den <<< exponent.toNat)
        else roundDiv .toEven (num <<< (-exponent).toNat) den) =
        toEven (num / den / 2 ^ exponent) := by
    intro exponent
    rw [← scaled_div, ← roundDiv_eq_toEven _ (scaled_snd_ne_zero num hDen exponent), scaled]
    split <;> rfl
  rw [nearest, if_neg hNum, binaryExponent_eq_log hNum hDen]
  exact Prod.ext (hScaled _) rfl

/-- The value of a significand and an exponent. -/
theorem ratio_div (significand : Nat) (exponent : Int) :
    ((ratio significand exponent).1 : ℚ) / (ratio significand exponent).2 =
      significand * 2 ^ exponent := by
  rw [ratio_eq_scaled, scaled_div, zpow_neg, div_inv_eq_mul, Nat.cast_one, div_one]

theorem nearestRatio_eq (num den : Nat) :
    nearestRatio num den = ratio (nearest num den).1 (nearest num den).2 := rfl

theorem nearestRatio_div (num : Nat) {den : Nat} (hDen : den ≠ 0) :
    ((nearestRatio num den).1 : ℚ) / (nearestRatio num den).2 = rounded (num / den) := by
  rw [nearestRatio_eq, ratio_div]
  by_cases hNum : num = 0
  · rw [hNum, nearest, if_pos rfl, Nat.cast_zero, zero_mul, zero_div, rounded_zero]
  · rw [nearest_eq hNum hDen, rounded]

theorem nearestRatio_snd_ne_zero (num den : Nat) : (nearestRatio num den).2 ≠ 0 := by
  rw [nearestRatio_eq, ratio_eq_scaled]
  exact scaled_snd_ne_zero _ one_ne_zero _

/-! ## Numbers of the format -/

/-- A number of the format that is not negative: at most 53 bits of significand, and no exponent
below the least one. The largest exponent of the format plays no part. -/
def Representable (x : ℚ) : Prop :=
  ∃ (significand : Nat) (exponent : Int),
    significand < 2 ^ 53 ∧ minExponent ≤ exponent ∧ x = significand * 2 ^ exponent

/-- Rounding that gives each value a number of the format to which no other is closer. Which way a
tie goes is left open. -/
structure RoundsToNearest (round : ℚ → ℚ) : Prop where
  representable {x : ℚ} : 0 ≤ x → Representable (round x)
  nearest {x y : ℚ} : 0 ≤ x → Representable y → |round x - x| ≤ |y - x|

theorem representable_natCast {n : Nat} (h : n < 2 ^ 53) : Representable n :=
  ⟨n, 0, h, by decide, by rw [zpow_zero, mul_one]⟩

/-- A significand of one followed by 53 zeros stands for the power of two itself. -/
theorem representable_of_le {significand : Nat} {exponent : Int} (h : significand ≤ 2 ^ 53)
    (hExponent : minExponent ≤ exponent) : Representable (significand * 2 ^ exponent) := by
  rcases h.lt_or_eq with hLess | rfl
  · exact ⟨significand, exponent, hLess, hExponent, rfl⟩
  · refine ⟨2 ^ 52, exponent + 1, by norm_num, by omega, ?_⟩
    rw [zpow_add_one₀ two_ne_zero]
    norm_num
    ring

theorem minExponent_le_lastPlace (x : ℚ) : minExponent ≤ lastPlace x := le_max_left _ _

/-- There are fewer units in a value than a significand can tell apart. -/
theorem div_lastPlace_lt (x : ℚ) : x / 2 ^ lastPlace x < 2 ^ 53 := by
  have hPower : (0 : ℚ) < 2 ^ lastPlace x := zpow_pos two_pos _
  have hLog := Int.lt_zpow_succ_log_self one_lt_two x
  have hExponent : Int.log 2 x + 1 ≤ 53 + lastPlace x := by
    rw [lastPlace]
    omega
  rw [div_lt_iff₀ hPower]
  calc x < 2 ^ (Int.log 2 x + 1) := hLog
    _ ≤ 2 ^ (53 + lastPlace x) := zpow_le_zpow_right₀ one_le_two hExponent
    _ = 2 ^ 53 * 2 ^ lastPlace x := zpow_add₀ two_ne_zero _ _

/-- Above the least exponent the units of a value have 53 bits. -/
theorem le_of_minExponent_lt {x : ℚ} (hx : 0 < x) (h : minExponent < lastPlace x) :
    2 ^ 52 * 2 ^ lastPlace x ≤ x := by
  have hExponent : 52 + lastPlace x = Int.log 2 x := by
    rw [lastPlace] at *
    omega
  calc (2 : ℚ) ^ 52 * 2 ^ lastPlace x
      = 2 ^ (52 + lastPlace x) := (zpow_add₀ two_ne_zero _ _).symm
    _ = 2 ^ Int.log 2 x := by rw [hExponent]
    _ ≤ x := Int.zpow_log_le_self one_lt_two hx

theorem representable_rounded {x : ℚ} (hx : 0 ≤ x) : Representable (rounded x) := by
  have hUnits : 0 ≤ x / 2 ^ lastPlace x := by positivity
  have hClose := (abs_le.mp (abs_toEven_sub_le hUnits)).2
  have hFew := div_lastPlace_lt x
  refine representable_of_le ?_ (minExponent_le_lastPlace x)
  have hSignificand : (toEven (x / 2 ^ lastPlace x) : ℚ) < (2 ^ 53 + 1 : Nat) := by
    push_cast
    linarith
  exact Nat.lt_succ_iff.mp (Nat.cast_lt.mp hSignificand)

/-- No multiple of the last place is closer. -/
theorem abs_rounded_sub_le_grid {x : ℚ} (hx : 0 ≤ x) (m : Int) :
    |rounded x - x| ≤ |m * 2 ^ lastPlace x - x| := by
  have hPower : (0 : ℚ) < 2 ^ lastPlace x := zpow_pos two_pos _
  have hUnits : 0 ≤ x / 2 ^ lastPlace x := by positivity
  have hValue : ∀ n : ℚ, |n * 2 ^ lastPlace x - x| =
      |n - x / 2 ^ lastPlace x| * 2 ^ lastPlace x := by
    intro n
    rw [← abs_of_pos hPower, ← abs_mul, abs_of_pos hPower, sub_mul, div_mul_cancel₀ _ hPower.ne']
  have hNear := abs_sub_le_of_le_half (n := toEven (x / 2 ^ lastPlace x))
    (by exact_mod_cast abs_toEven_sub_le hUnits) m
  rw [rounded, hValue, hValue]
  exact mul_le_mul_of_nonneg_right (by exact_mod_cast hNear) hPower.le

/-- A finer number of the format is no closer either, because a multiple of the last place lies
between it and the value. -/
theorem abs_rounded_sub_le {x y : ℚ} (hx : 0 ≤ x) (hy : Representable y) :
    |rounded x - x| ≤ |y - x| := by
  obtain ⟨significand, exponent, hBits, hExponent, rfl⟩ := hy
  rcases hx.eq_or_lt with rfl | hPos
  · rw [rounded_zero, sub_zero, abs_zero]
    exact abs_nonneg _
  rcases le_or_gt (lastPlace x) exponent with hGrid | hFiner
  · obtain ⟨k, hk⟩ := Int.le.dest hGrid
    have hMultiple : (significand : ℚ) * 2 ^ exponent =
        ((significand * 2 ^ k : Nat) : Int) * 2 ^ lastPlace x := by
      rw [← hk, zpow_add₀ two_ne_zero, zpow_natCast]
      push_cast
      ring
    rw [hMultiple]
    exact abs_rounded_sub_le_grid hx _
  · -- The power of two with 53 bits on the grid stands between the finer number and the value.
    have hBetween := le_of_minExponent_lt hPos (hExponent.trans_lt hFiner)
    have hSmall : (significand : ℚ) * 2 ^ exponent ≤ 2 ^ 52 * 2 ^ lastPlace x := by
      calc (significand : ℚ) * 2 ^ exponent
          ≤ 2 ^ 53 * 2 ^ (lastPlace x - 1) := by
            gcongr
            · exact_mod_cast hBits.le
            · exact one_le_two
            · omega
        _ = 2 ^ 52 * 2 ^ lastPlace x := by
            rw [zpow_sub_one₀ two_ne_zero]
            ring
    calc |rounded x - x|
        ≤ |((2 ^ 52 : Int) : ℚ) * 2 ^ lastPlace x - x| := abs_rounded_sub_le_grid hx _
      _ = x - 2 ^ 52 * 2 ^ lastPlace x := by
          rw [abs_sub_comm, abs_of_nonneg]
          · norm_num
          · norm_num at hBetween ⊢
            linarith
      _ ≤ x - significand * 2 ^ exponent := by linarith
      _ ≤ |significand * 2 ^ exponent - x| := by
          rw [abs_sub_comm]
          exact le_abs_self _

theorem rounded_roundsToNearest : RoundsToNearest rounded :=
  ⟨representable_rounded, abs_rounded_sub_le⟩

/-! ## Order -/

namespace RoundsToNearest

variable {round : ℚ → ℚ} {x y : ℚ}

/-- A number of the format is the only one that is closest to itself. -/
theorem eq_self (h : RoundsToNearest round) (hx : 0 ≤ x) (hFormat : Representable x) :
    round x = x := by
  have hNear := h.nearest hx hFormat
  rw [sub_self, abs_zero] at hNear
  exact sub_eq_zero.mp (abs_nonpos_iff.mp hNear)

/-- Were the rounded numbers in the other order, the smaller value would lie on the upper side of
their middle and the larger one on the lower side, so that the two would be one value. -/
theorem mono (h : RoundsToNearest round) (hx : 0 ≤ x) (hxy : x ≤ y) : round x ≤ round y := by
  by_contra hOrder
  rw [not_le] at hOrder
  have hy := hx.trans hxy
  -- The squares of the distances differ by a product with the distance of the two values.
  have hNearX := sq_le_sq.mpr (h.nearest hx (h.representable hy))
  have hNearY := sq_le_sq.mpr (h.nearest hy (h.representable hx))
  have hProduct : (round x - round y) * (y - x) ≤ 0 := by linarith
  have hSame : y = x :=
    le_antisymm (sub_nonpos.mp (nonpos_of_mul_nonpos_right hProduct (sub_pos.mpr hOrder))) hxy
  rw [hSame] at hOrder
  exact lt_irrefl _ hOrder

theorem monotoneOn (h : RoundsToNearest round) : MonotoneOn round (Set.Ici 0) :=
  fun _ hx _ _ hxy => h.mono hx hxy

theorem nonneg (h : RoundsToNearest round) (hx : 0 ≤ x) : 0 ≤ round x := by
  obtain ⟨significand, exponent, _, _, hValue⟩ := h.representable hx
  rw [hValue]
  positivity

theorem natCast (h : RoundsToNearest round) {n : Nat} (hn : n < 2 ^ 53) : round n = n :=
  h.eq_self n.cast_nonneg (representable_natCast hn)

end RoundsToNearest

end Binary64

end BlockFilter
