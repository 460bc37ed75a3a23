import TypedCommands.Proofs.Rounding

/-! The floats nearest to a number. A float is a magnitude with a sign, and of either sign there is
one that is nearest; for decimals it is the one that is read. -/
namespace TypedCommands.Binary64

/-- What a magnitude stands for; infinity for the power of two that would come next. -/
def magnitudeValue (m : ℕ) : ℚ := units m / 2 ^ 1074

@[simp] theorem magnitudeValue_zero : magnitudeValue 0 = 0 := by
  rw [magnitudeValue, units_zero]
  exact zero_div _

theorem magnitudeValue_nonneg (m : ℕ) : 0 ≤ magnitudeValue m :=
  div_nonneg (Nat.cast_nonneg _) (pow_nonneg (by decide) _)

theorem magnitudeValue_strictMono : StrictMono magnitudeValue := by
  intro m n h
  have scale : (0 : ℚ) < 2 ^ 1074 := by positivity
  have less : (units m : ℚ) < units n := by exact_mod_cast units_strictMono h
  exact div_lt_div_of_pos_right less scale

theorem abs_units_sub (m : ℕ) (v : ℚ) :
    |(units m : ℚ) - v * 2 ^ 1074| = |magnitudeValue m - v| * 2 ^ 1074 := by
  have scale : (0 : ℚ) < 2 ^ 1074 := by positivity
  rw [← abs_of_pos scale, ← abs_mul, abs_of_pos scale, sub_mul, magnitudeValue,
    div_mul_cancel₀ _ scale.ne']

def sign (negative : Bool) : ℚ := if negative then -1 else 1

theorem abs_sign (negative : Bool) : |sign negative| = 1 := by
  cases negative <;> simp [sign]

def value (x : Binary64) : ℚ := sign x.negative * magnitudeValue x.magnitude

/-- No other float is nearer to the number, and where another one is as near, it is the even one of
the two that is taken. -/
structure IsNearest (x : Binary64) (v : ℚ) : Prop where
  number : x.magnitude ≤ infinite
  closest : ∀ y : Binary64, y.magnitude ≤ infinite → |x.value - v| ≤ |y.value - v|
  even : ∀ y : Binary64, y.magnitude ≤ infinite → y.value ≠ x.value →
    |y.value - v| = |x.value - v| → x.magnitude % 2 = 0

theorem abs_value_sub (x : Binary64) (v : ℚ) :
    |x.value - sign x.negative * v| = |magnitudeValue x.magnitude - v| := by
  rw [value, ← mul_sub, abs_mul, abs_sign, one_mul]

/-- A float of the other sign is further away than zero by all that it is worth. -/
theorem abs_value_sub_of_ne {x : Binary64} {negative : Bool} {v : ℚ} (h : 0 ≤ v)
    (other : x.negative ≠ negative) :
    |x.value - sign negative * v| = magnitudeValue x.magnitude + v := by
  have opposite : sign negative = -sign x.negative := by
    cases hx : x.negative <;> cases negative <;> simp_all [sign]
  rw [opposite, value, neg_mul, sub_neg_eq_add, ← mul_add, abs_mul, abs_sign, one_mul]
  exact abs_of_nonneg (add_nonneg (magnitudeValue_nonneg _) h)

/-- Nearest among the magnitudes is nearest among the floats of the same sign, hence among all. -/
theorem Closest.isNearest {x : Binary64} {v : ℚ} (h : Closest x.magnitude (v * 2 ^ 1074))
    (positive : 0 ≤ v) : x.IsNearest (sign x.negative * v) := by
  have closest (k : ℕ) (hk : k ≤ infinite) :
      |magnitudeValue x.magnitude - v| ≤ |magnitudeValue k - v| := by
    have closer := h.closest k hk
    rw [abs_units_sub, abs_units_sub] at closer
    exact le_of_mul_le_mul_right closer (by positivity)
  have even (k : ℕ) (hk : k ≤ infinite) (other : k ≠ x.magnitude)
      (same : |magnitudeValue k - v| = |magnitudeValue x.magnitude - v|) : x.magnitude % 2 = 0 :=
    h.even k hk other (by rw [abs_units_sub, abs_units_sub, same])
  have zero : |magnitudeValue 0 - v| = v := by
    rw [magnitudeValue_zero, zero_sub, abs_neg, abs_of_nonneg positive]
  have within := (closest 0 (Nat.zero_le _)).trans_eq zero
  refine ⟨h.le, fun y hy => ?_, fun y hy other same => ?_⟩
  · rw [abs_value_sub]
    by_cases alike : y.negative = x.negative
    · rw [← alike, abs_value_sub]
      exact closest _ hy
    · rw [abs_value_sub_of_ne positive alike]
      linarith [magnitudeValue_nonneg y.magnitude]
  · rw [abs_value_sub] at same
    by_cases alike : y.negative = x.negative
    · rw [← alike, abs_value_sub] at same
      refine even _ hy (fun equal => other ?_) same
      rw [value, value, alike, equal]
    · rw [abs_value_sub_of_ne positive alike] at same
      by_cases none : x.magnitude = 0
      · rw [none]
      · refine even 0 (Nat.zero_le _) (Ne.symm none) ?_
        rw [zero]
        linarith [magnitudeValue_nonneg y.magnitude]

/-- A decimal is read as the nearest float of its sign. -/
theorem ofDecimal_isNearest (negative : Bool) (digits : ℕ) (exponent : ℤ) :
    (ofDecimal negative digits exponent).IsNearest
      (sign negative * (digits * 10 ^ exponent)) := by
  have positive : (0 : ℚ) ≤ digits * 10 ^ exponent :=
    mul_nonneg (Nat.cast_nonneg _) (zpow_nonneg (by decide) _)
  exact Closest.isNearest (x := ofDecimal negative digits exponent)
    (nearestDecimal_closest digits exponent) positive

theorem abs_sub_lt_of_between {a b c v : ℚ} (hab : a < b) (hbc : b < c)
    (h : |a - v| = |c - v|) : |b - v| < |a - v| := by
  have middle : v = (a + c) / 2 := by
    rcases abs_eq_abs.mp h with same | opposite <;> linarith
  have half : |a - v| = (c - a) / 2 := by
    rw [abs_of_nonpos (by linarith), middle]
    ring
  rw [half, abs_lt]
  constructor <;> linarith

theorem IsNearest.magnitude_le {x y : Binary64} {v : ℚ} (hx : x.IsNearest v) (hy : y.IsNearest v)
    (same : x.negative = y.negative) : x.magnitude ≤ y.magnitude := by
  by_contra greater
  have greater : y.magnitude < x.magnitude := Nat.lt_of_not_le greater
  -- In terms of the magnitudes the number is on the side of both floats.
  have distance (z : Binary64) (alike : z.negative = x.negative) :
      |z.value - v| = |magnitudeValue z.magnitude - sign x.negative * v| := by
    have twice : sign x.negative * (sign x.negative * v) = v := by
      cases x.negative <;> simp [sign]
    rw [← abs_value_sub, alike, twice]
  have level : |x.value - v| = |y.value - v| :=
    le_antisymm (hx.closest y hy.number) (hy.closest x hx.number)
  have differs : x.value ≠ y.value := by
    intro equal
    have steps := magnitudeValue_strictMono greater
    rw [value, value, same] at equal
    have nonzero : sign y.negative ≠ 0 := by
      cases y.negative <;> simp [sign]
    exact steps.ne' (mul_left_cancel₀ nonzero equal)
  have evenx := hx.even y hy.number differs.symm level.symm
  have eveny := hy.even x hx.number differs level
  let z : Binary64 := ⟨x.negative, y.magnitude + 1, by have := x.magnitude_lt; omega⟩
  have closer := hy.closest z (by have := hx.number; show y.magnitude + 1 ≤ infinite; omega)
  rw [distance z rfl, distance y same.symm] at closer
  rw [distance x rfl, distance y same.symm] at level
  have between := abs_sub_lt_of_between (b := magnitudeValue z.magnitude)
    (magnitudeValue_strictMono (Nat.lt_succ_self _))
    (magnitudeValue_strictMono (by show y.magnitude + 1 < x.magnitude; omega)) level.symm
  exact absurd closer (not_le.mpr between)

/-- There is only one nearest float of each sign. -/
theorem IsNearest.unique {x y : Binary64} {v : ℚ} (hx : x.IsNearest v) (hy : y.IsNearest v)
    (same : x.negative = y.negative) : x = y := by
  have equal := le_antisymm (hx.magnitude_le hy same) (hy.magnitude_le hx same.symm)
  obtain ⟨negative, magnitude, lt⟩ := x
  obtain ⟨negative', magnitude', lt'⟩ := y
  cases same
  cases equal
  rfl

/-- Numbers that have a nearest magnitude in common have the nearest floats in common. -/
theorem IsNearest.congr {x : Binary64} {m : ℕ} {v w : ℚ} (h : x.IsNearest (sign x.negative * v))
    (hv : Closest m (v * 2 ^ 1074)) (hw : Closest m (w * 2 ^ 1074)) (positive : 0 ≤ v)
    (positive' : 0 ≤ w) : x.IsNearest (sign x.negative * w) := by
  let y : Binary64 := ⟨x.negative, m, Nat.lt_of_le_of_lt hv.le (by decide)⟩
  have same : x = y := h.unique (Closest.isNearest (x := y) hv positive) rfl
  have nearest : y.IsNearest (sign y.negative * w) := Closest.isNearest hw positive'
  rwa [← same] at nearest

/-- A power of ten that is large enough takes every number but zero beyond the finite floats. -/
theorem closest_infinite_of_large {d : ℕ} {e : ℤ} (nonzero : 0 < d) (large : endExponent ≤ e) :
    Closest infinite (d * 10 ^ e * 2 ^ 1074) := by
  apply closest_infinite
  have scale : (0 : ℚ) ≤ 2 ^ 1074 := by positivity
  have digits : (1 : ℚ) ≤ d := by exact_mod_cast nonzero
  have positive : (0 : ℚ) ≤ 10 ^ e := zpow_nonneg (by decide) e
  rw [units_infinite, Nat.cast_mul, Nat.cast_pow, Nat.cast_pow]
  refine mul_le_mul_of_nonneg_right ?_ scale
  calc ((2 : ℕ) : ℚ) ^ 1024 ≤ 10 ^ endExponent := by
        exact_mod_cast infinite_le_of_endExponent (le_refl endExponent)
    _ = 10 ^ (endExponent : ℤ) := (zpow_natCast 10 endExponent).symm
    _ ≤ 10 ^ e := zpow_le_zpow_right₀ (by decide) large
    _ ≤ d * 10 ^ e := le_mul_of_one_le_left positive digits

/-- A power of ten that is small enough takes every number of so many digits below half of the least
float. -/
theorem closest_zero_of_small {d k : ℕ} {e : ℤ} (digits : d < 10 ^ k) (small : k + e ≤ -324) :
    Closest 0 (d * 10 ^ e * 2 ^ 1074) := by
  have positive : (0 : ℚ) ≤ 10 ^ e := zpow_nonneg (by decide) e
  have scale : (0 : ℚ) ≤ 2 ^ 1074 := by positivity
  refine closest_zero (mul_nonneg (mul_nonneg (Nat.cast_nonneg d) positive) scale) ?_
  obtain ⟨p, hp⟩ : ∃ p, p = 324 := ⟨_, rfl⟩
  have half : (2 : ℚ) ^ 1074 * 2 ≤ 10 ^ p := by
    have : 2 ^ 1074 * 2 ≤ 10 ^ p := by
      rw [hp]
      decide +kernel
    exact_mod_cast this
  have below : (d : ℚ) * 10 ^ e ≤ (10 ^ p)⁻¹ :=
    calc (d : ℚ) * 10 ^ e ≤ 10 ^ k * 10 ^ e := by
          apply mul_le_mul_of_nonneg_right _ positive
          exact_mod_cast digits.le
      _ = 10 ^ (k + e) := by rw [zpow_add₀ (by decide), zpow_natCast]
      _ ≤ 10 ^ (-(p : ℤ)) := zpow_le_zpow_right₀ (by decide) (by omega)
      _ = (10 ^ p)⁻¹ := by rw [zpow_neg, zpow_natCast]
  calc (d : ℚ) * 10 ^ e * 2 ^ 1074 ≤ (10 ^ p)⁻¹ * 2 ^ 1074 := mul_le_mul_of_nonneg_right below scale
    _ ≤ 1 / 2 := by
      rw [inv_mul_eq_div, div_le_div_iff₀ (by positivity) (by decide), one_mul]
      exact half

end TypedCommands.Binary64
