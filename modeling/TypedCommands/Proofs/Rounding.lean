import Mathlib.Algebra.Order.Ring.Abs
import Mathlib.Algebra.Order.Field.Rat
import Mathlib.Data.Rat.Cast.Order
import Mathlib.Tactic.FieldSimp
import Mathlib.Tactic.GCongr
import Mathlib.Tactic.Linarith
import Mathlib.Tactic.Positivity
import Mathlib.Tactic.Ring
import TypedCommands.Number.Binary64

/-! Rounding to the nearest magnitude. Magnitudes are compared by the units that they stand for, where
infinity stands for the power of two that would come next; so the numbers that round to infinity
are those from the middle between it and the last finite number on. -/
namespace TypedCommands.Binary64

/-- A magnitude is an exponent field and a fraction. -/
theorem exists_fields (m : ℕ) : ∃ f r, r < 2 ^ 52 ∧ m = f * 2 ^ 52 + r :=
  ⟨m / 2 ^ 52, m % 2 ^ 52, Nat.mod_lt m (by positivity), (Nat.div_add_mod' m (2 ^ 52)).symm⟩

theorem units_subnormal {r : ℕ} (h : r < 2 ^ 52) : units r = r := by
  simp only [units, Nat.shiftRight_eq_div_pow, Nat.div_eq_of_lt h, if_true, Nat.shiftLeft_eq,
    one_mul, Nat.mod_eq_of_lt h]

theorem units_normal (d : ℕ) {r : ℕ} (h : r < 2 ^ 52) :
    units ((d + 1) * 2 ^ 52 + r) = (2 ^ 52 + r) * 2 ^ d := by
  have field : ((d + 1) * 2 ^ 52 + r) / 2 ^ 52 = d + 1 := by omega
  have fraction : ((d + 1) * 2 ^ 52 + r) % 2 ^ 52 = r := by omega
  simp only [units, Nat.shiftRight_eq_div_pow, Nat.shiftLeft_eq, one_mul, field, fraction,
    Nat.add_one_sub_one, Nat.add_one_ne_zero, if_false]

/-- Digits in the last place of `2 ^ d`, with a carry into the exponent field if need be. -/
theorem units_digits {d r : ℕ} (low : 2 ^ 52 ≤ r ∨ d = 0) (high : r ≤ 2 ^ 53) :
    units (d * 2 ^ 52 + r) = r * 2 ^ d := by
  rcases Nat.lt_or_ge r (2 ^ 52) with small | normal
  · obtain rfl : d = 0 := by omega
    simpa using units_subnormal small
  rcases Nat.lt_or_eq_of_le high with within | carry
  · have h := units_normal d (r := r - 2 ^ 52) (by omega)
    rwa [show (d + 1) * 2 ^ 52 + (r - 2 ^ 52) = d * 2 ^ 52 + r by omega,
      Nat.add_sub_cancel' normal] at h
  · have h := units_normal (d + 1) (r := 0) (by positivity)
    rw [show (d + 1 + 1) * 2 ^ 52 + 0 = d * 2 ^ 52 + r by omega] at h
    rw [h, carry]
    ring

/-- Each magnitude is a multiple of a last place, or lies below the magnitudes that have it. -/
theorem units_lt_or_dvd (k d : ℕ) : units k < 2 ^ 52 * 2 ^ d ∨ 2 ^ d ∣ units k := by
  obtain ⟨f, r, hr, rfl⟩ := exists_fields k
  cases f with
  | zero =>
    left
    rw [Nat.zero_mul, Nat.zero_add, units_subnormal hr]
    exact Nat.lt_of_lt_of_le hr (Nat.le_mul_of_pos_right _ (by positivity))
  | succ e =>
    rw [units_normal e hr]
    rcases Nat.lt_or_ge e d with lower | higher
    · left
      calc (2 ^ 52 + r) * 2 ^ e < 2 ^ 53 * 2 ^ e := by
            apply Nat.mul_lt_mul_of_pos_right _ (by positivity)
            omega
        _ = 2 ^ 52 * 2 ^ (e + 1) := by ring
        _ ≤ 2 ^ 52 * 2 ^ d := Nat.mul_le_mul_left _ (Nat.pow_le_pow_right (by decide) lower)
    · exact .inr (Dvd.dvd.mul_left (pow_dvd_pow 2 higher) _)

theorem units_lt_units_succ (m : ℕ) : units m < units (m + 1) := by
  obtain ⟨f, r, hr, rfl⟩ := exists_fields m
  cases f with
  | zero =>
    have h := units_digits (d := 0) (r := r + 1) (.inr rfl) (by omega)
    have h' := units_subnormal hr
    simp only [Nat.zero_mul, Nat.zero_add, pow_zero, Nat.mul_one] at h ⊢
    omega
  | succ e =>
    have h := units_digits (d := e) (r := 2 ^ 52 + r + 1) (.inl (by omega)) (by omega)
    rw [show (e + 1) * 2 ^ 52 + r + 1 = e * 2 ^ 52 + (2 ^ 52 + r + 1) by omega, h,
      units_normal e hr]
    exact Nat.mul_lt_mul_of_pos_right (by omega) (by positivity)

theorem units_strictMono : StrictMono units := strictMono_nat_of_lt_succ units_lt_units_succ

/-- The integer that is taken is at most half a unit away, and if it is that far it is even. -/
theorem roundEven_bounds (num : ℕ) {den : ℕ} (h : 0 < den) :
    2 * (roundEven num den * den) ≤ 2 * num + den ∧
      2 * num ≤ 2 * (roundEven num den * den) + den ∧
      (2 * (roundEven num den * den) = 2 * num + den ∨
        2 * num = 2 * (roundEven num den * den) + den → roundEven num den % 2 = 0) := by
  have hd := Nat.div_add_mod' num den
  have hr := Nat.mod_lt num h
  unfold roundEven
  dsimp only
  split
  · omega
  · rw [Nat.add_mul, Nat.one_mul]
    omega

theorem roundEven_near (num : ℕ) {den : ℕ} (h : 0 < den) :
    |(roundEven num den : ℚ) - num / den| ≤ 1 / 2 ∧
      (|(roundEven num den : ℚ) - num / den| = 1 / 2 → roundEven num den % 2 = 0) := by
  obtain ⟨upper, lower, tie⟩ := roundEven_bounds num h
  generalize roundEven num den = r at upper lower tie ⊢
  have hden : (0 : ℚ) < den := by exact_mod_cast h
  obtain ⟨y, hy⟩ : ∃ y : ℚ, y = num / den := ⟨_, rfl⟩
  have hnum : (num : ℚ) = y * den := by rw [hy, div_mul_cancel₀ _ hden.ne']
  rw [← hy]
  have above : (r : ℚ) ≤ y + 1 / 2 := by
    have : (2 : ℚ) * (r * den) ≤ 2 * num + den := by exact_mod_cast upper
    nlinarith
  have below : y ≤ (r : ℚ) + 1 / 2 := by
    have : (2 : ℚ) * num ≤ 2 * (r * den) + den := by exact_mod_cast lower
    nlinarith
  refine ⟨abs_le.mpr ⟨by linarith, by linarith⟩, fun half => tie ?_⟩
  rcases (abs_eq (by norm_num)).mp half with high | low
  · left
    have : (2 : ℚ) * (r * den) = 2 * num + den := by rw [hnum, sub_eq_iff_eq_add.mp high]; ring
    exact_mod_cast this
  · right
    have : (2 : ℚ) * num = 2 * (r * den) + den := by rw [hnum, sub_eq_iff_eq_add.mp low]; ring
    exact_mod_cast this

/-- Of the integers, the one that is taken is nearest to the quotient, and even if another one is as
near. -/
theorem roundEven_closest (num : ℕ) {den : ℕ} (h : 0 < den) (s : ℕ) :
    |(roundEven num den : ℚ) - num / den| ≤ |(s : ℚ) - num / den| ∧
      (s ≠ roundEven num den → |(s : ℚ) - num / den| = |(roundEven num den : ℚ) - num / den| →
        roundEven num den % 2 = 0) := by
  obtain ⟨near, even⟩ := roundEven_near num h
  generalize roundEven num den = r at near even ⊢
  generalize (num : ℚ) / den = y at near even ⊢
  by_cases other : s = r
  · rw [other]
    exact ⟨le_refl _, fun differs => absurd rfl differs⟩
  · have apart : (1 : ℚ) ≤ |(s : ℚ) - r| := by
      have : (1 : ℤ) ≤ |(s : ℤ) - r| := Int.one_le_abs (by omega)
      exact_mod_cast this
    have through : |(s : ℚ) - r| ≤ |(s : ℚ) - y| + |(r : ℚ) - y| := by
      rw [abs_sub_comm (r : ℚ) y]
      exact abs_sub_le _ _ _
    exact ⟨by linarith, fun _ same => even (by linarith)⟩

/-- Rounding does not pass an integer. -/
theorem roundEven_le {num den s : ℕ} (h : 0 < den) (le : (num : ℚ) / den ≤ s) :
    roundEven num den ≤ s := by
  have closer := (roundEven_closest num h s).1
  rw [abs_of_nonneg (sub_nonneg.mpr le)] at closer
  have : (roundEven num den : ℚ) ≤ s := by
    linarith [le_abs_self ((roundEven num den : ℚ) - num / den)]
  exact_mod_cast this

theorem le_roundEven {num den s : ℕ} (h : 0 < den) (le : (s : ℚ) ≤ num / den) :
    s ≤ roundEven num den := by
  have closer := (roundEven_closest num h s).1
  rw [abs_of_nonpos (sub_nonpos.mpr le)] at closer
  have : (s : ℚ) ≤ roundEven num den := by
    linarith [neg_abs_le ((roundEven num den : ℚ) - num / den)]
  exact_mod_cast this

/-- A magnitude is nearest to a number of units, and even if another one is as near. -/
structure Closest (m : ℕ) (x : ℚ) : Prop where
  le : m ≤ infinite
  closest : ∀ k ≤ infinite, |(units m : ℚ) - x| ≤ |(units k : ℚ) - x|
  even : ∀ k ≤ infinite, k ≠ m → |(units k : ℚ) - x| = |(units m : ℚ) - x| → m % 2 = 0

/-- So many digits are dropped that 53 are left, unless the quotient has fewer. -/
theorem dropped_bounds (num : ℕ) {den : ℕ} (h : 0 < den) :
    let d := (num / den).log2 - 52
    num < 2 ^ 53 * (den * 2 ^ d) ∧ (d = 0 ∨ 2 ^ 52 * (den * 2 ^ d) ≤ num) := by
  intro d
  have hd : d = (num / den).log2 - 52 := rfl
  constructor
  · have digits : num / den < 2 ^ (53 + d) :=
      Nat.lt_of_lt_of_le Nat.lt_log2_self (Nat.pow_le_pow_right (by decide) (by omega))
    calc num < 2 ^ (53 + d) * den := (Nat.div_lt_iff_lt_mul h).mp digits
      _ = 2 ^ 53 * (den * 2 ^ d) := by ring
  · rcases Nat.eq_zero_or_pos d with none | some
    · exact .inl none
    · right
      have nonzero : num / den ≠ 0 := by
        intro zero
        rw [zero, Nat.log2_zero] at hd
        omega
      have digits : 2 ^ (52 + d) ≤ num / den := by
        have := Nat.log2_self_le nonzero
        rwa [show (num / den).log2 = 52 + d by omega] at this
      calc 2 ^ 52 * (den * 2 ^ d) = 2 ^ (52 + d) * den := by ring
        _ ≤ num := (Nat.le_div_iff_mul_le h).mp digits

/-- The nearest multiple of a last place is the nearest magnitude of all, unless the number is so
small that there are magnitudes between the multiples. -/
theorem closest_on_grid {m r d : ℕ} {y : ℚ} (value : (units m : ℚ) = r * 2 ^ d)
    (parity : m % 2 = r % 2) (above : d = 0 ∨ 2 ^ 52 ≤ y)
    (nearest : ∀ s : ℕ, |(r : ℚ) - y| ≤ |(s : ℚ) - y| ∧
      (s ≠ r → |(s : ℚ) - y| = |(r : ℚ) - y| → r % 2 = 0)) (k : ℕ) :
    |(units m : ℚ) - y * 2 ^ d| ≤ |(units k : ℚ) - y * 2 ^ d| ∧
      (k ≠ m → |(units k : ℚ) - y * 2 ^ d| = |(units m : ℚ) - y * 2 ^ d| → m % 2 = 0) := by
  have place : (0 : ℚ) < 2 ^ d := by positivity
  have grid (s : ℕ) : |(units m : ℚ) - y * 2 ^ d| ≤ |(s : ℚ) * 2 ^ d - y * 2 ^ d| := by
    rw [value, ← sub_mul, ← sub_mul, abs_mul, abs_mul, abs_of_pos place]
    exact mul_le_mul_of_nonneg_right (nearest s).1 place.le
  have shape : (2 ^ 52 ≤ y ∧ units k < 2 ^ 52 * 2 ^ d) ∨ ∃ s, units k = 2 ^ d * s := by
    rcases above with none | above
    · exact .inr ⟨units k, by rw [none, pow_zero, one_mul]⟩
    · exact (units_lt_or_dvd k d).imp_left fun less => ⟨above, less⟩
  rcases shape with ⟨above, less⟩ | ⟨s, hs⟩
  · -- A magnitude without that last place is further away than the first one that has it.
    have closer : |(units m : ℚ) - y * 2 ^ d| ≤ |2 ^ 52 * 2 ^ d - y * 2 ^ d| := by
      exact_mod_cast grid (2 ^ 52)
    have less : (units k : ℚ) < 2 ^ 52 * 2 ^ d := by exact_mod_cast less
    have first : (2 : ℚ) ^ 52 * 2 ^ d ≤ y * 2 ^ d := mul_le_mul_of_nonneg_right above place.le
    rw [abs_of_nonpos (show (2 : ℚ) ^ 52 * 2 ^ d - y * 2 ^ d ≤ 0 by linarith)] at closer
    rw [abs_of_neg (show (units k : ℚ) - y * 2 ^ d < 0 by linarith)]
    exact ⟨by linarith, fun _ same => by linarith⟩
  · have hk : (units k : ℚ) = s * 2 ^ d := by
      rw [hs]
      push_cast
      ring
    refine ⟨hk ▸ grid s, fun other same => ?_⟩
    have differs : s ≠ r := by
      rintro rfl
      exact other (units_strictMono.injective (by exact_mod_cast hk.trans value.symm))
    rw [parity]
    refine (nearest s).2 differs ?_
    rw [value, hk, ← sub_mul, ← sub_mul, abs_mul, abs_mul, abs_of_pos place] at same
    exact mul_right_cancel₀ place.ne' same

/-- With as many digits as a magnitude has, the nearest integer is the nearest magnitude of all. -/
theorem roundEven_digits_closest (num : ℕ) {den : ℕ} (h : 0 < den) (k : ℕ) :
    let d := (num / den).log2 - 52
    let m := d * 2 ^ 52 + roundEven num (den * 2 ^ d)
    |(units m : ℚ) - num / den| ≤ |(units k : ℚ) - num / den| ∧
      (k ≠ m → |(units k : ℚ) - num / den| = |(units m : ℚ) - num / den| → m % 2 = 0) := by
  intro d m
  obtain ⟨small, large⟩ := dropped_bounds num h
  have positive : 0 < den * 2 ^ d := by positivity
  have hd : (0 : ℚ) < (den * 2 ^ d : ℕ) := by exact_mod_cast positive
  have below : (num : ℚ) / (den * 2 ^ d : ℕ) ≤ (2 ^ 53 : ℕ) := by
    rw [div_le_iff₀ hd]
    exact_mod_cast small.le
  have above : d = 0 ∨ ((2 ^ 52 : ℕ) : ℚ) ≤ num / (den * 2 ^ d : ℕ) := by
    refine large.imp_right fun large => ?_
    rw [le_div_iff₀ hd]
    exact_mod_cast large
  have high : roundEven num (den * 2 ^ d) ≤ 2 ^ 53 := roundEven_le positive below
  have low : 2 ^ 52 ≤ roundEven num (den * 2 ^ d) ∨ d = 0 :=
    above.symm.imp_left (le_roundEven positive)
  have value : (units m : ℚ) = roundEven num (den * 2 ^ d) * 2 ^ d := by
    rw [units_digits low high]
    push_cast
    ring
  have parity : m % 2 = roundEven num (den * 2 ^ d) % 2 := by omega
  have quotient : (num : ℚ) / den = num / (den * 2 ^ d : ℕ) * 2 ^ d := by
    push_cast
    field_simp
  rw [quotient]
  exact closest_on_grid value parity (by exact_mod_cast above) (roundEven_closest num positive) k

/-- A number from infinity's on is nearest to it. -/
theorem closest_infinite {x : ℚ} (h : (units infinite : ℚ) ≤ x) : Closest infinite x where
  le := le_refl _
  closest k hk := by
    have : (units k : ℚ) ≤ units infinite := by exact_mod_cast units_strictMono.monotone hk
    rw [abs_of_nonpos (by linarith), abs_of_nonpos (by linarith)]
    linarith
  even _ _ _ _ := by decide

theorem units_zero : units 0 = 0 := by decide

/-- A number up to half of the least one is nearest to zero. -/
theorem closest_zero {x : ℚ} (h : 0 ≤ x) (small : x ≤ 1 / 2) : Closest 0 x where
  le := Nat.zero_le _
  closest k _ := by
    rw [units_zero, Nat.cast_zero, zero_sub, abs_neg, abs_of_nonneg h]
    rcases Nat.eq_zero_or_pos k with rfl | positive
    · rw [units_zero, Nat.cast_zero, zero_sub, abs_neg]
      exact le_abs_self x
    · have : (1 : ℚ) ≤ units k := by
        exact_mod_cast Nat.lt_of_le_of_lt (Nat.zero_le _) (units_strictMono positive)
      linarith [le_abs_self ((units k : ℚ) - x)]
  even _ _ _ _ := rfl

/-- Cutting magnitudes off at infinity keeps the nearest one. -/
theorem closest_min {m : ℕ} {x : ℚ}
    (h : ∀ k, |(units m : ℚ) - x| ≤ |(units k : ℚ) - x| ∧
      (k ≠ m → |(units k : ℚ) - x| = |(units m : ℚ) - x| → m % 2 = 0)) :
    Closest (min m infinite) x := by
  rcases Nat.lt_or_ge infinite m with beyond | finite
  · rw [Nat.min_eq_right beyond.le]
    apply closest_infinite
    have further : (units infinite : ℚ) < units m := by exact_mod_cast units_strictMono beyond
    by_contra less
    have closer := (h infinite).1
    rw [abs_of_pos (by linarith), abs_of_pos (by linarith)] at closer
    linarith
  · rw [Nat.min_eq_left finite]
    exact ⟨finite, fun k _ => (h k).1, fun k _ => (h k).2⟩

theorem nearest_closest (num : ℕ) {den : ℕ} (h : 0 < den) :
    Closest (nearest num den) (num / den * 2 ^ 1074) := by
  have scaled (p : ℕ) : ((num <<< p : ℕ) : ℚ) / den = num / den * 2 ^ p := by
    rw [Nat.shiftLeft_eq]
    push_cast
    ring
  have best := closest_min (roundEven_digits_closest (num <<< 1074) h)
  rw [scaled] at best
  simpa only [nearest, Nat.shiftLeft_eq] using best

theorem units_infinite : units infinite = 2 ^ 1024 * 2 ^ 1074 := by
  have h := units_normal 2046 (r := 0) (by positivity)
  rw [show (2046 + 1) * 2 ^ 52 + 0 = infinite by decide, Nat.add_zero, ← pow_add] at h
  rw [h, ← pow_add]

theorem infinite_le_of_endExponent {e : ℕ} (h : endExponent ≤ e) : 2 ^ 1024 ≤ 10 ^ e := by
  have first : 2 ^ 1024 ≤ 10 ^ endExponent := by decide +kernel
  exact first.trans (Nat.pow_le_pow_right (by decide) h)

/-- What is negligible lies below half of the least number. -/
theorem half_of_isNegligible {digits power : ℕ} (h : isNegligible digits power = true) :
    2 * (digits * 2 ^ 1074) ≤ 10 ^ power := by
  have short : digits.log2 + 1077 < 3 * power := of_decide_eq_true h
  calc 2 * (digits * 2 ^ 1074) ≤ 2 * (2 ^ (digits.log2 + 1) * 2 ^ 1074) := by
        have : digits ≤ 2 ^ (digits.log2 + 1) := Nat.lt_log2_self.le
        gcongr
    _ = 2 ^ (digits.log2 + 1 + 1074 + 1) := by rw [← pow_add, ← pow_succ']
    _ ≤ 2 ^ (3 * power) := Nat.pow_le_pow_right (by decide) (by omega)
    _ = (2 ^ 3) ^ power := pow_mul 2 3 power
    _ ≤ 10 ^ power := Nat.pow_le_pow_left (by decide) power

/-- The shortcuts for very large and very small numbers agree with rounding. -/
theorem nearestDecimal_closest (digits : ℕ) (exponent : ℤ) :
    Closest (nearestDecimal digits exponent) (digits * 10 ^ exponent * 2 ^ 1074) := by
  cases exponent with
  | ofNat e =>
    have power : (10 : ℚ) ^ Int.ofNat e = (10 ^ e : ℕ) := by push_cast; exact zpow_natCast 10 e
    rw [power]
    simp only [nearestDecimal]
    split
    · rename_i zero
      subst zero
      exact closest_zero (by simp) (by simp)
    rename_i nonzero
    split
    · rename_i large
      apply closest_infinite
      have : units infinite ≤ digits * 10 ^ e * 2 ^ 1074 := by
        rw [units_infinite]
        have := infinite_le_of_endExponent large
        have := Nat.le_mul_of_pos_left (10 ^ e) (Nat.pos_of_ne_zero nonzero)
        gcongr
        omega
      exact_mod_cast this
    · have h := nearest_closest (digits * 10 ^ e) Nat.one_pos
      rwa [Nat.cast_one, div_one, Nat.cast_mul] at h
  | negSucc e =>
    have power : (10 : ℚ) ^ Int.negSucc e = ((10 ^ (e + 1) : ℕ) : ℚ)⁻¹ := by
      push_cast
      exact zpow_negSucc 10 e
    rw [power, ← div_eq_mul_inv]
    simp only [nearestDecimal]
    split
    · rename_i small
      have half : (2 : ℚ) * (digits * 2 ^ 1074) ≤ (10 ^ (e + 1) : ℕ) := by
        exact_mod_cast half_of_isNegligible small
      refine closest_zero (by positivity) ?_
      rw [div_mul_eq_mul_div, div_le_div_iff₀ (by positivity) (by decide), one_mul, mul_comm]
      exact half
    · exact nearest_closest digits (Nat.pow_pos (by decide))

end TypedCommands.Binary64
