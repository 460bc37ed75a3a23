import TypedCommands.Proofs.Nearest
import TypedCommands.Proofs.Scanning

/-! What numerals are worth. The value of a numeral is told by all of its digits, while the digits of
an exponent are read only until they make a large number. Before such an exponent it takes tens of
thousands of digits to make a difference: with fewer the value is beyond all floats either way, or
below half of the least one. -/
namespace TypedCommands.Numeral

open Binary64 (sign IsNearest Closest)

/-- The number that digits denote. -/
def number (ds : List Char) : ℕ := Nat.ofDigitChars 10 ds 0

theorem value_eq_number (ds : List Char) : Digits.value ds = number ds := by
  rw [Digits.value_eq, number, Nat.ofDigitChars_eq_foldl]
  rfl

theorem le_ofDigitChars (ds : List Char) (n : ℕ) : n ≤ Nat.ofDigitChars 10 ds n := by
  induction ds generalizing n with
  | nil => exact le_refl n
  | cons d ds ih =>
    rw [Nat.ofDigitChars_cons]
    have := ih (10 * n + (d.toNat - '0'.toNat))
    omega

theorem ofDigitChars_lt {ds : List Char} (digits : ∀ d ∈ ds, d.isDigit = true) (n : ℕ) :
    Nat.ofDigitChars 10 ds n < (n + 1) * 10 ^ ds.length := by
  induction ds generalizing n with
  | nil => simp
  | cons d ds ih =>
    obtain ⟨head, others⟩ := List.forall_mem_cons.mp digits
    have high := (Char.isDigit_iff_toNat.mp head).2
    rw [Nat.ofDigitChars_cons]
    calc Nat.ofDigitChars 10 ds (10 * n + (d.toNat - '0'.toNat))
        < (10 * n + (d.toNat - '0'.toNat) + 1) * 10 ^ ds.length := ih others _
      _ ≤ (10 * n + 10) * 10 ^ ds.length := by
          apply Nat.mul_le_mul_right
          simp only [Char.reduceToNat] at high ⊢
          omega
      _ = (n + 1) * 10 ^ (d :: ds).length := by rw [List.length_cons]; ring

theorem number_lt {ds : List Char} (digits : ∀ d ∈ ds, d.isDigit = true) :
    number ds < 10 ^ ds.length := by
  have bound := ofDigitChars_lt digits 0
  rwa [Nat.zero_add, Nat.one_mul] at bound

/-- What a digit of an exponent makes of the number before it. -/
def addDigit (n : ℕ) (d : Char) : ℕ := if n < fullExponent then 10 * n + Digits.ofChar d else n

/-- Digits are read to the end, unless one follows a number that is full already. -/
theorem foldl_addDigit_of_lt (ds : List Char) (n : ℕ)
    (small : Nat.ofDigitChars 10 ds n < 10 * fullExponent) :
    ds.foldl addDigit n = Nat.ofDigitChars 10 ds n := by
  induction ds generalizing n with
  | nil => rfl
  | cons d ds ih =>
    rw [Nat.ofDigitChars_cons] at small ⊢
    have grown := le_ofDigitChars ds (10 * n + (d.toNat - '0'.toNat))
    have free : n < fullExponent := by omega
    have step : addDigit n d = 10 * n + (d.toNat - '0'.toNat) := if_pos free
    rw [List.foldl_cons, step, ih _ small]

theorem le_foldl_addDigit (ds : List Char) (n : ℕ)
    (large : fullExponent ≤ Nat.ofDigitChars 10 ds n) : fullExponent ≤ ds.foldl addDigit n := by
  induction ds generalizing n with
  | nil => exact large
  | cons d ds ih =>
    rw [List.foldl_cons]
    apply ih
    rcases Nat.lt_or_ge n fullExponent with free | full
    · have step : addDigit n d = 10 * n + (d.toNat - '0'.toNat) := if_pos free
      rwa [step, ← Nat.ofDigitChars_cons]
    · have step : addDigit n d = n := if_neg (Nat.not_lt.mpr full)
      rw [step]
      exact full.trans (le_ofDigitChars ds n)

theorem exponentDigits_eq_number {ds : List Char} (small : number ds < 10 * fullExponent) :
    exponentDigits ds = number ds := foldl_addDigit_of_lt ds 0 small

theorem le_exponentDigits {ds : List Char} (large : fullExponent ≤ number ds) :
    fullExponent ≤ exponentDigits ds := le_foldl_addDigit ds 0 large

/-- The digits before the exponent. -/
def digits (n : Numeral) : List Char := n.whole ++ n.fraction.getD []

/-- The value of a numeral whose exponent is `e`. -/
def scaled (n : Numeral) (e : ℤ) : ℚ :=
  sign n.negative * (number n.digits * 10 ^ (e - (n.fraction.getD []).length))

/-- The exponent as it is written. -/
def writtenExponent : Option (Char × Option Char × List Char) → ℤ
  | none => 0
  | some (_, sign, ds) => if sign = some '-' then -(number ds : ℤ) else number ds

/-- The value of a numeral. -/
def decimal (n : Numeral) : ℚ := n.scaled (writtenExponent n.exponent)

/-- Either the exponent is read to its end, or there are too few digits for the rest to matter. -/
def Plain (n : Numeral) : Prop :=
  (writtenExponent n.exponent).natAbs < 655360 ∨ n.digits.length ≤ 65000

instance (n : Numeral) : Decidable n.Plain := inferInstanceAs (Decidable (_ ∨ _))

/-- The value of a numeral as far as it is read. -/
def reckoned (n : Numeral) : ℚ := if n.Plain then n.decimal else n.scaled (exponentValue n.exponent)

theorem Spelled.digits {n : Numeral} (h : n.Spelled) : ∀ d ∈ n.digits, d.isDigit = true := by
  intro d hd
  rcases List.mem_append.mp hd with whole | fraction
  · exact h.whole.digits d whole
  · cases parts : n.fraction with
    | none => simp [parts] at fraction
    | some ds => exact h.fraction ds parts d (by simpa [parts] using fraction)

theorem floatValue_isNearest_scaled (n : Numeral) :
    n.floatValue.IsNearest (n.scaled (exponentValue n.exponent)) := by
  have nearest := Binary64.ofDecimal_isNearest n.negative (Digits.value n.digits)
    (exponentValue n.exponent - (n.fraction.getD []).length)
  rw [scaled, ← value_eq_number]
  exact nearest

theorem natAbs_writtenExponent (mark : Char) (sign : Option Char) (ds : List Char) :
    (writtenExponent (some (mark, sign, ds))).natAbs = number ds := by
  simp only [writtenExponent]
  split <;> omega

theorem exponentValue_eq {e : Option (Char × Option Char × List Char)}
    (small : (writtenExponent e).natAbs < 10 * fullExponent) :
    exponentValue e = writtenExponent e := by
  cases e with
  | none => rfl
  | some e =>
    obtain ⟨mark, sign, ds⟩ := e
    rw [natAbs_writtenExponent] at small
    simp only [exponentValue, writtenExponent, exponentDigits_eq_number small]

/-- An exponent that is large as it is written is large as it is read. -/
theorem exponentValue_large {e : Option (Char × Option Char × List Char)}
    (large : fullExponent ≤ (writtenExponent e).natAbs) :
    (fullExponent ≤ exponentValue e ∧ fullExponent ≤ writtenExponent e) ∨
      (exponentValue e ≤ -fullExponent ∧ writtenExponent e ≤ -fullExponent) := by
  cases e with
  | none => exact absurd large (by decide)
  | some e =>
    obtain ⟨mark, sign, ds⟩ := e
    rw [natAbs_writtenExponent] at large
    have := le_exponentDigits large
    simp only [exponentValue, writtenExponent]
    split <;> omega

/-- With few digits, all large exponents of one sign make the same float. -/
theorem isNearest_of_large {n : Numeral} (h : n.Spelled) (short : n.digits.length ≤ 65000)
    {e e' : ℤ} {x : Binary64} (alike : x.negative = n.negative)
    (large : (fullExponent ≤ e ∧ fullExponent ≤ e') ∨ (e ≤ -fullExponent ∧ e' ≤ -fullExponent))
    (nearest : x.IsNearest (n.scaled e)) : x.IsNearest (n.scaled e') := by
  have places : (n.fraction.getD []).length ≤ 65000 := by
    have : n.digits.length = n.whole.length + (n.fraction.getD []).length := List.length_append
    omega
  have full : fullExponent = 65536 := rfl
  have positive (k : ℤ) : (0 : ℚ) ≤ number n.digits * 10 ^ k :=
    mul_nonneg (Nat.cast_nonneg _) (zpow_nonneg (by decide) k)
  rw [scaled, ← alike] at nearest ⊢
  rcases Nat.eq_zero_or_pos (number n.digits) with zero | nonzero
  · rw [zero, Nat.cast_zero, zero_mul] at nearest ⊢
    exact nearest
  rcases large with ⟨he, he'⟩ | ⟨he, he'⟩
  · have finish : Binary64.endExponent = 310 := rfl
    exact nearest.congr (Binary64.closest_infinite_of_large nonzero (by omega))
      (Binary64.closest_infinite_of_large nonzero (by omega)) (positive _) (positive _)
  · have bound := number_lt h.digits
    exact nearest.congr (Binary64.closest_zero_of_small bound (by omega))
      (Binary64.closest_zero_of_small bound (by omega)) (positive _) (positive _)

/-- A numeral is read as the nearest float of its sign. -/
theorem floatValue_isNearest {n : Numeral} (h : n.Spelled) : n.floatValue.IsNearest n.reckoned := by
  have nearest := n.floatValue_isNearest_scaled
  have full : fullExponent = 65536 := rfl
  rw [reckoned]
  split
  · rename_i plain
    rw [decimal]
    rcases Nat.lt_or_ge (writtenExponent n.exponent).natAbs 655360 with small | large
    · rwa [exponentValue_eq (by omega)] at nearest
    · have short : n.digits.length ≤ 65000 := plain.resolve_left (Nat.not_lt.mpr large)
      exact isNearest_of_large h short rfl (exponentValue_large (by omega)) nearest
  · exact nearest

end TypedCommands.Numeral
