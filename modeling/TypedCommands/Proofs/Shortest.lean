import TypedCommands.Number.Shortest
import TypedCommands.Proofs.Nearest

/-! The decimals of the shortest search. The search ends on a grid with a point between the midpoints
from a magnitude to its neighbours, at the latest on the finest one; and to every number between these
the magnitude is nearest. -/
namespace TypedCommands.Binary64

section Between

variable {m k : ℕ} {y : ℚ}

/-- Every other magnitude is one of the two neighbours or lies behind it. -/
theorem units_other (other : k ≠ m) :
    ((units k : ℚ) ≤ units (m - 1) ∧ (units k : ℚ) < units m) ∨
      ((units (m + 1) : ℚ) ≤ units k ∧ (units m : ℚ) < units k) := by
  rcases Nat.lt_or_gt_of_ne other with below | above
  · left
    constructor
    · exact_mod_cast units_strictMono.monotone (Nat.le_sub_one_of_lt below)
    · exact_mod_cast units_strictMono below
  · right
    constructor
    · exact_mod_cast units_strictMono.monotone above
    · exact_mod_cast units_strictMono above

/-- A number between the midpoints is no further from the magnitude than from any other one. -/
theorem abs_units_sub_le (low : (units (m - 1) + units m : ℚ) ≤ 2 * y)
    (high : 2 * y ≤ (units m + units (m + 1) : ℚ)) (k : ℕ) :
    |(units m : ℚ) - y| ≤ |(units k : ℚ) - y| := by
  by_cases other : k = m
  · rw [other]
  rcases units_other other with ⟨step, less⟩ | ⟨step, more⟩
  · have near : |(units m : ℚ) - y| ≤ y - units k := abs_le.mpr ⟨by linarith, by linarith⟩
    rw [abs_sub_comm (units k : ℚ)]
    exact near.trans (le_abs_self _)
  · have near : |(units m : ℚ) - y| ≤ units k - y := abs_le.mpr ⟨by linarith, by linarith⟩
    exact near.trans (le_abs_self _)

/-- If it is not a midpoint, it is nearer to the magnitude than to any other one. -/
theorem abs_units_sub_lt (low : (units (m - 1) + units m : ℚ) < 2 * y)
    (high : 2 * y < (units m + units (m + 1) : ℚ)) (other : k ≠ m) :
    |(units m : ℚ) - y| < |(units k : ℚ) - y| := by
  rcases units_other other with ⟨step, less⟩ | ⟨step, more⟩
  · have near : |(units m : ℚ) - y| < y - units k := abs_lt.mpr ⟨by linarith, by linarith⟩
    rw [abs_sub_comm (units k : ℚ)]
    exact near.trans_le (le_abs_self _)
  · have near : |(units m : ℚ) - y| < units k - y := abs_lt.mpr ⟨by linarith, by linarith⟩
    exact near.trans_le (le_abs_self _)

end Between

/-- What the interval says of a point: it lies within, and at an end only if the magnitude is even. -/
theorem Interval.contains_iff {i : Interval} {x : ℕ} : i.contains x = true ↔
    i.low ≤ x ∧ x ≤ i.high ∧ (i.closed = true ∨ i.low < x ∧ x < i.high) := by
  unfold contains
  cases i.closed with
  | true => simp
  | false =>
    simp only [Bool.false_eq_true, if_false, Bool.and_eq_true, decide_eq_true_eq, false_or]
    omega

theorem powerOfTen_pos (e : ℕ) : 0 < powerOfTen e := Nat.pow_pos (by decide)

/-- A decimal in the units of the search, of which there are `2 * 2 ^ t * 10 ^ p` to one. -/
theorem scaled_decimal (d e p t : ℕ) : 2 * ((d : ℚ) * 10 ^ (e - p : ℤ) * 2 ^ t) * powerOfTen p =
    ((d * (powerOfTen e <<< (t + 1)) : ℕ) : ℚ) := by
  have power (k : ℕ) : (powerOfTen k : ℚ) = 10 ^ k := Nat.cast_pow 10 k
  have shifted : (10 : ℚ) ^ (e - p : ℤ) * powerOfTen p = powerOfTen e := by
    rw [power, power, ← zpow_natCast, ← zpow_natCast, ← zpow_add₀ (by decide), sub_add_cancel]
  calc 2 * ((d : ℚ) * 10 ^ (e - p : ℤ) * 2 ^ t) * powerOfTen p
      = d * (10 ^ (e - p : ℤ) * powerOfTen p * (2 ^ t * 2)) := by ring
    _ = ((d * (powerOfTen e <<< (t + 1)) : ℕ) : ℚ) := by
      rw [shifted, ← pow_succ, Nat.shiftLeft_eq]
      push_cast
      rfl

/-- A magnitude is nearest to the numbers in its interval, in whatever parts of a unit that is
counted. -/
theorem closest_of_scaled {m point parts : ℕ} {y : ℚ} (finite : m ≤ infinite)
    (positive : 0 < parts) (scale : 2 * y * parts = point)
    (low : (units (m - 1) + units m) * parts ≤ point)
    (high : point ≤ (units m + units (m + 1)) * parts)
    (ends : m % 2 = 0 ∨ (units (m - 1) + units m) * parts < point ∧
      point < (units m + units (m + 1)) * parts) : Closest m y := by
  have unit : (0 : ℚ) < parts := by exact_mod_cast positive
  have below (a : ℕ) : (a : ℚ) ≤ 2 * y ↔ a * parts ≤ point := by
    rw [← mul_le_mul_iff_of_pos_right unit, scale]
    exact_mod_cast Iff.rfl
  have above (a : ℕ) : 2 * y ≤ (a : ℚ) ↔ point ≤ a * parts := by
    rw [← mul_le_mul_iff_of_pos_right unit, scale]
    exact_mod_cast Iff.rfl
  have lower := (below _).mpr low
  have upper := (above _).mpr high
  rw [Nat.cast_add] at lower upper
  refine ⟨finite, fun k _ => abs_units_sub_le lower upper k, fun k _ other same => ?_⟩
  rcases ends with even | ⟨low, high⟩
  · exact even
  · have lower := (lt_iff_lt_of_le_iff_le (above _)).mpr low
    have upper := (lt_iff_lt_of_le_iff_le (below _)).mpr high
    rw [Nat.cast_add] at lower upper
    exact absurd same (abs_units_sub_lt lower upper other).ne'

/-- A magnitude is nearest to the decimals in its interval. -/
theorem closest_of_contains {m d e : ℕ} (finite : m ≤ infinite)
    (h : (interval m).contains (d * (powerOfTen e <<< 1075)) = true) :
    Closest m (d * 10 ^ (e - places : ℤ) * 2 ^ 1074) := by
  obtain ⟨low, high, ends⟩ := Interval.contains_iff.mp h
  exact closest_of_scaled finite (powerOfTen_pos places) (scaled_decimal d e places 1074) low high
    (ends.imp_left of_decide_eq_true)

section Search

variable {i : Interval} {x step : ℕ}

/-- What is found on a grid is in the interval. -/
theorem contains_of_gridPoint {d : ℕ} (h : gridPoint? i x step = some d) :
    i.contains (d * step) = true := by
  unfold gridPoint? at h
  dsimp only at h
  split at h
  · rename_i lower upper
    cases h
    split <;> assumption
  · rename_i lower _
    cases h
    exact lower
  · rename_i _ upper
    cases h
    exact upper
  · cases h

theorem exists_gridPoint (h : i.contains (x / step * step) = true) :
    ∃ d, gridPoint? i x step = some d := by
  unfold gridPoint?
  dsimp only
  rw [h]
  cases i.contains ((x / step + 1) * step) with
  | true => exact ⟨_, rfl⟩
  | false => exact ⟨_, rfl⟩

/-- A grid that is finer than the way from the lower end has a point on it. -/
theorem contains_multiple (positive : 0 < step) (low : i.low + step ≤ x) (high : x < i.high) :
    i.contains (x / step * step) = true := by
  have below := Nat.div_mul_le_self x step
  have above := Nat.lt_div_mul_add positive (a := x)
  exact Interval.contains_iff.mpr ⟨by omega, by omega, .inr ⟨by omega, by omega⟩⟩

/-- The search ends within an interval that the finest grid does not miss. -/
theorem contains_search (finest : i.contains (x / (1 <<< 1075) * (1 <<< 1075)) = true) (e : ℕ) :
    i.contains ((search i x e).digits * (powerOfTen (search i x e).exponent <<< 1075)) = true := by
  induction e with
  | zero =>
    obtain ⟨d, found⟩ := exists_gridPoint finest
    simp only [search, found]
    exact contains_of_gridPoint found
  | succ e ih =>
    cases found : gridPoint? i x (powerOfTen (e + 1) <<< 1075) with
    | none =>
      simp only [search, found]
      exact ih
    | some d =>
      simp only [search, found]
      exact contains_of_gridPoint found

end Search

theorem finest_le_places : 1 <<< 1075 ≤ powerOfTen places := by decide +kernel

/-- The shortest decimal of a magnitude lies in its interval. -/
theorem shortest_contains {m : ℕ} (positive : 0 < m) : (interval m).contains
    ((shortest m).digits * (powerOfTen (shortest m).exponent <<< 1075)) = true := by
  have below : units (m - 1) + 1 ≤ units m := units_strictMono (Nat.sub_one_lt_of_lt positive)
  have above : units m < units (m + 1) := units_lt_units_succ m
  apply contains_search
  apply contains_multiple (by decide +kernel)
  · calc (units (m - 1) + units m) * powerOfTen places + 1 <<< 1075
        ≤ (units (m - 1) + units m) * powerOfTen places + powerOfTen places :=
          Nat.add_le_add_left finest_le_places _
      _ = (units (m - 1) + 1 + units m) * powerOfTen places := by ring
      _ ≤ 2 * units m * powerOfTen places := Nat.mul_le_mul_right _ (by omega)
  · exact Nat.mul_lt_mul_of_pos_right (by omega) (powerOfTen_pos places)

/-- A magnitude is nearest to its shortest decimal. -/
theorem shortest_closest {m : ℕ} (positive : 0 < m) (finite : m ≤ infinite) :
    Closest m ((shortest m).digits * 10 ^ ((shortest m).exponent - places : ℤ) * 2 ^ 1074) :=
  closest_of_contains finite (shortest_contains positive)

theorem digits_le_of_scaled {d e p t bound : ℕ}
    (h : d * (powerOfTen e <<< (t + 1)) ≤ 2 * (bound * 2 ^ t) * p) : d ≤ bound * p := by
  have step : 2 ^ (t + 1) ≤ powerOfTen e <<< (t + 1) := by
    rw [Nat.shiftLeft_eq]
    exact Nat.le_mul_of_pos_left _ (powerOfTen_pos e)
  have scaled : d * 2 ^ (t + 1) ≤ bound * p * 2 ^ (t + 1) :=
    calc d * 2 ^ (t + 1) ≤ d * (powerOfTen e <<< (t + 1)) := Nat.mul_le_mul_left d step
      _ ≤ 2 * (bound * 2 ^ t) * p := h
      _ = bound * p * 2 ^ (t + 1) := by ring
  exact Nat.le_of_mul_le_mul_right scaled (by positivity)

/-- It has so many digits at most. -/
theorem shortest_digits_lt {m : ℕ} (positive : 0 < m) (finite : m < infinite) :
    (shortest m).digits < 10 ^ 671 := by
  obtain ⟨-, high, -⟩ := Interval.contains_iff.mp (shortest_contains positive)
  have here : units m ≤ units infinite := units_strictMono.monotone finite.le
  have next : units (m + 1) ≤ units infinite := units_strictMono.monotone finite
  have below : (interval m).high ≤ 2 * units infinite * powerOfTen places :=
    Nat.mul_le_mul_right _ (by omega)
  rw [units_infinite] at below
  have few : 2 ^ 1024 * powerOfTen places < 10 ^ 671 := by decide +kernel
  exact Nat.lt_of_le_of_lt (digits_le_of_scaled (high.trans below)) few

end TypedCommands.Binary64
