import Mathlib.Data.Nat.Digits.Defs
import TypedCommands.Proofs.Numbers
import TypedCommands.Proofs.Shortest
import TypedCommands.Value

/-! Numbers that are printed and read again. Whichever way a float is written out, its text is that of
one numeral that is worth the shortest decimal, and the nearest float to that is the one that was
printed. -/
namespace TypedCommands

namespace Numeral

open Binary64 (Closest)

/-- The numeral is the text behind the sign, and it is the float `± d * 10 ^ e`. -/
structure Spells (n : Numeral) (cs : List Char) (negative : Bool) (d : ℕ) (e : ℤ) : Prop where
  spelled : n.Spelled
  text : n.text = (if negative then ['-'] else []) ++ cs
  sign : n.negative = negative
  float : n.isInteger = false
  plain : n.Plain
  decimal : n.decimal = Binary64.sign negative * (d * 10 ^ e)

/-- A numeral that is worth a decimal is read as the float that is nearest to it. -/
theorem Spells.kind {n : Numeral} {cs : List Char} {d : ℕ} {e : ℤ} {x : Binary64}
    (h : n.Spells cs x.negative d e) (finite : x.isFinite = true)
    (closest : Closest x.magnitude (d * 10 ^ e * 2 ^ 1074)) : n.kind = .literal (.float x) := by
  have positive : (0 : ℚ) ≤ d * 10 ^ e := mul_nonneg (Nat.cast_nonneg _) (zpow_nonneg (by decide) _)
  have nearest := floatValue_isNearest h.spelled
  rw [reckoned, if_pos h.plain, h.decimal] at nearest
  have same : n.floatValue = x := nearest.unique (closest.isNearest positive) h.sign
  rw [Numeral.kind, h.float, same, finite]
  rfl

theorem number_append_zeros (ds : List Char) (k : ℕ) :
    number (ds ++ List.replicate k '0') = number ds * 10 ^ k := by
  rw [number, Nat.ofDigitChars_append, Nat.ofDigitChars_replicate_zero, Nat.mul_comm]
  rfl

theorem isDigit_of_mem_zeros {k : ℕ} {c : Char} (h : c ∈ List.replicate k '0') :
    c.isDigit = true := by
  rw [List.eq_of_mem_replicate h]
  rfl

theorem figures_zero : Figures ['0'] := ⟨nofun, List.forall_mem_singleton.mpr rfl⟩

theorem Figures.append {ds es : List Char} (h : Figures ds) (others : ∀ e ∈ es, e.isDigit = true) :
    Figures (ds ++ es) where
  ne_nil := List.append_ne_nil_of_left_ne_nil h.ne_nil es
  digits d hd := (List.mem_append.mp hd).elim (h.digits d) (others d)

/-- The numeral with these digits before and behind the point, and no exponent. -/
theorem spells_point {whole fraction cs : List Char} {d k : ℕ} {e : ℤ} (negative : Bool)
    (figures : Figures whole) (digits : ∀ c ∈ fraction, c.isDigit = true)
    (text : whole ++ '.' :: fraction = cs) (value : number (whole ++ fraction) = d * 10 ^ k)
    (place : e + fraction.length = k) :
    Spells ⟨negative, whole, some fraction, none⟩ cs negative d e where
  spelled := by
    refine ⟨figures, ?_, nofun⟩
    rintro _ ⟨⟩
    exact digits
  text := by
    rw [← text]
    simp [Numeral.text, fractionText, exponentText]
  sign := rfl
  float := rfl
  plain := .inl (show (0 : ℤ).natAbs < 655360 by decide)
  decimal := by
    have exponent : (e : ℤ) = k + (0 - fraction.length) := by omega
    show Binary64.sign negative *
      (number (whole ++ fraction) * 10 ^ ((0 : ℤ) - fraction.length)) = _
    rw [value, exponent, zpow_add₀ (by decide), zpow_natCast]
    push_cast
    ring

section Styles

open Binary64 (positional scientific style)

variable {ds : List Char} {e : ℕ}

theorem positional_of_lt (long : e + 1 < ds.length) :
    positional style ds e = ds.take (e + 1) ++ '.' :: ds.drop (e + 1) := by
  have fraction : ds.drop (e + 1) ≠ [] := by
    rw [ne_eq, List.drop_eq_nil_iff]
    omega
  have padding : e + 1 - ds.length = 0 := by omega
  show ds.take (e + 1) ++ List.replicate (e + 1 - ds.length) '0' ++
    '.' :: (if ds.drop (e + 1) = [] then ['0'] else ds.drop (e + 1)) = _
  rw [if_neg fraction, padding, List.replicate_zero, List.append_nil]

theorem positional_of_ge (short : ds.length ≤ e + 1) :
    positional style ds e = ds ++ List.replicate (e + 1 - ds.length) '0' ++ ['.', '0'] := by
  have fraction : ds.drop (e + 1) = [] := List.drop_eq_nil_iff.mpr short
  show ds.take (e + 1) ++ List.replicate (e + 1 - ds.length) '0' ++
    '.' :: (if ds.drop (e + 1) = [] then ['0'] else ds.drop (e + 1)) = _
  rw [if_pos fraction, List.take_of_length_le short]

/-- Digits with a point among them, behind them, or before them. -/
theorem exists_spells_positional (figures : Figures ds) (negative : Bool) (exponent : ℤ) :
    ∃ n : Numeral, n.Spells (positional style ds exponent) negative (number ds)
      (exponent - (ds.length - 1)) := by
  have filled := List.length_pos_iff.mpr figures.ne_nil
  cases exponent with
  | ofNat e =>
    rcases Nat.lt_or_ge (e + 1) ds.length with long | short
    · have whole : Figures (ds.take (e + 1)) :=
        ⟨by simpa using figures.ne_nil, fun d hd => figures.digits d (List.mem_of_mem_take hd)⟩
      have digits (c : Char) (hc : c ∈ ds.drop (e + 1)) : c.isDigit = true :=
        figures.digits c (List.mem_of_mem_drop hc)
      have value : number (ds.take (e + 1) ++ ds.drop (e + 1)) = number ds * 10 ^ 0 := by
        rw [List.take_append_drop, pow_zero, Nat.mul_one]
      have place : (e : ℤ) - (ds.length - 1) + (ds.drop (e + 1)).length = (0 : ℕ) := by
        rw [List.length_drop]
        omega
      exact ⟨_, spells_point negative whole digits (positional_of_lt long).symm value place⟩
    · have whole : Figures (ds ++ List.replicate (e + 1 - ds.length) '0') :=
        figures.append fun _ => isDigit_of_mem_zeros
      have value : number (ds ++ List.replicate (e + 1 - ds.length) '0' ++ ['0']) =
          number ds * 10 ^ (e + 1 - ds.length + 1) := by
        rw [← number_append_zeros, List.replicate_succ', List.append_assoc]
      have place : (e : ℤ) - (ds.length - 1) + ['0'].length = (e + 1 - ds.length + 1 : ℕ) := by
        rw [List.length_singleton]
        omega
      exact ⟨_, spells_point negative whole figures_zero.digits (positional_of_ge short).symm value
        place⟩
  | negSucc e =>
    have digits : ∀ c ∈ List.replicate e '0' ++ ds, c.isDigit = true := fun c hc =>
      (List.mem_append.mp hc).elim isDigit_of_mem_zeros (figures.digits c)
    have value : number (['0'] ++ (List.replicate e '0' ++ ds)) = number ds * 10 ^ 0 := by
      rw [pow_zero, Nat.mul_one]
      exact number_replicate_zero (e + 1) ds
    have place : Int.negSucc e - (ds.length - 1) + (List.replicate e '0' ++ ds).length = (0 : ℕ) := by
      rw [List.length_append, List.length_replicate, Int.negSucc_eq]
      omega
    exact ⟨_, spells_point negative figures_zero digits rfl value place⟩

/-- An exponent is written with the sign that it has, and digits. -/
theorem exists_writtenExponent (exponent : ℤ) :
    ∃ sign es, (∀ s ∈ sign, s = '+' ∨ s = '-') ∧ Figures es ∧
      (toString exponent).toList = sign.toList ++ es ∧
      ∀ mark, writtenExponent (some (mark, sign, es)) = exponent := by
  obtain ⟨negative, es, digits, ne, text, value⟩ := toString_eq exponent
  rw [integerValue, value_eq_number] at value
  cases negative with
  | true =>
    have minus : ∀ s ∈ some '-', s = '+' ∨ s = '-' := by
      rintro _ ⟨⟩
      exact .inr rfl
    exact ⟨some '-', es, minus, ⟨ne, digits⟩, text, fun _ => value⟩
  | false =>
    have unsigned : ∀ s ∈ (none : Option Char), s = '+' ∨ s = '-' := by
      rintro _ ⟨⟩
    exact ⟨none, es, unsigned, ⟨ne, digits⟩, text, fun _ => value⟩

/-- The first digit, and the others behind a point if there are any. -/
theorem exists_mantissa (figures : Figures ds) (exponent : ℤ) :
    ∃ d fraction, ds = d :: Option.getD fraction [] ∧ scientific style ds exponent =
      d :: (fractionText fraction ++ 'e' :: (toString exponent).toList) := by
  match ds, figures.ne_nil with
  | [d], _ => exact ⟨d, none, rfl, rfl⟩
  | d :: e :: es, _ => exact ⟨d, some (e :: es), rfl, rfl⟩

/-- One digit before the point, and an exponent. -/
theorem exists_spells_scientific (figures : Figures ds) (few : ds.length ≤ 65000) (negative : Bool)
    (exponent : ℤ) :
    ∃ n : Numeral, n.Spells (scientific style ds exponent) negative (number ds)
      (exponent - (ds.length - 1)) := by
  obtain ⟨d, fraction, rfl, mantissa⟩ := exists_mantissa figures exponent
  obtain ⟨sign, es, signs, esfigures, written, value⟩ := exists_writtenExponent exponent
  have digits := List.forall_mem_cons.mp figures.digits
  let n : Numeral := ⟨negative, [d], fraction, some ('e', sign, es)⟩
  have spelled : n.Spelled := by
    refine ⟨⟨nofun, List.forall_mem_singleton.mpr digits.1⟩, ?_, ?_⟩
    · rintro fs ⟨⟩
      exact digits.2
    · rintro _ _ _ ⟨⟩
      exact ⟨.inl rfl, signs, esfigures⟩
  have text : n.text = (if negative then ['-'] else []) ++
      scientific style (d :: fraction.getD []) exponent := by
    rw [mantissa, written]
    simp [n, Numeral.text, exponentText]
  have float : n.isInteger = false := by
    simp [n, isInteger]
  have decimal : n.decimal = Binary64.sign negative * (number (d :: fraction.getD []) *
      10 ^ (exponent - ((d :: fraction.getD []).length - 1 : ℤ))) := by
    have place : exponent - ((d :: fraction.getD []).length - 1 : ℤ) =
        exponent - (fraction.getD []).length := by
      rw [List.length_cons]
      omega
    rw [place, ← value 'e']
    rfl
  exact ⟨n, spelled, text, rfl, float, .inr few, decimal⟩

end Styles

end Numeral

namespace Binary64

open Numeral (Spells Figures number)

theorem figures_toDigits (n : ℕ) : Figures (Nat.toDigits 10 n) where
  ne_nil := Nat.toDigits_ne_nil
  digits _ hd := Nat.isDigit_of_mem_toDigits (by decide) (by decide) hd

theorem number_toDigits (n : ℕ) : number (Nat.toDigits 10 n) = n :=
  Nat.ofDigitChars_toDigits (by decide) (by decide)

/-- The text of a finite magnitude is worth a decimal that it is nearest to. -/
theorem exists_spells_magnitude {m : ℕ} (finite : m < infinite) (negative : Bool) :
    ∃ n d e, Spells n (magnitudeText style m) negative d e ∧ Closest m (d * 10 ^ e * 2 ^ 1074) := by
  rcases Nat.eq_zero_or_pos m with rfl | positive
  · obtain ⟨n, spells⟩ := Numeral.exists_spells_positional Numeral.figures_zero negative 0
    have zero : number ['0'] = 0 := rfl
    refine ⟨n, 0, _, spells, ?_⟩
    rw [Nat.cast_zero, zero_mul, zero_mul]
    exact closest_zero (le_refl _) (by norm_num)
  · have closest := shortest_closest positive finite.le
    have figures := figures_toDigits (shortest m).digits
    have worth := number_toDigits (shortest m).digits
    have few : (Nat.toDigits 10 (shortest m).digits).length ≤ 671 :=
      Nat.toDigits_length _ _ _ (by decide) (shortest_digits_lt positive finite)
    have exponent (k : ℕ) : (k : ℤ) - 1 + (shortest m).exponent - places - (k - 1) =
        (shortest m).exponent - places := by omega
    simp only [magnitudeText, if_neg positive.ne']
    split
    · obtain ⟨n, spells⟩ := Numeral.exists_spells_positional figures negative _
      rw [worth, exponent] at spells
      exact ⟨n, _, _, spells, closest⟩
    · have short := few.trans (show 671 ≤ 65000 by decide)
      obtain ⟨n, spells⟩ := Numeral.exists_spells_scientific figures short negative _
      rw [worth, exponent] at spells
      exact ⟨n, _, _, spells, closest⟩

/-- The text of a float is that of a numeral, which denotes it. -/
theorem exists_numeral {x : Binary64} (finite : x.isFinite = true) : ∃ n : Numeral, n.Spelled ∧
    n.text = x.text.toList ∧ n.kind = .literal (.float x) := by
  have below : x.magnitude < infinite := of_decide_eq_true finite
  obtain ⟨n, d, e, spells, closest⟩ := exists_spells_magnitude below x.negative
  refine ⟨n, spells.spelled, ?_, spells.kind finite closest⟩
  have number : x.isNaN = false := decide_eq_false (by omega)
  have bounded : x.isInfinite = false := decide_eq_false (by omega)
  rw [spells.text, Binary64.text, number, bounded]
  cases x.negative <;> simp [style]

theorem toBits_ofBits (b : UInt64) : (ofBits b).toBits = b := by
  have parts : (if decide (1 <<< 63 ≤ b.toNat) = true then 1 <<< 63 else 0) + b.toNat % 1 <<< 63 =
      b.toNat := by
    have range := b.toNat_lt
    simp only [decide_eq_true_eq, Nat.one_shiftLeft] at range ⊢
    split <;> omega
  rw [ofBits, toBits, parts, UInt64.ofNat_toNat]

end Binary64

namespace Token

/-- The text is one word, and that is the literal. -/
def Holds (text : String) (value : Literal) : Prop :=
  tokens text = [⟨.literal value, text, Position.start⟩,
    ⟨.finish, "", Position.behind text.toList⟩]

theorem holds_of_numeral {n : Numeral} {text : String} {value : Literal} (spelled : n.Spelled)
    (same : n.text = text.toList) (kind : n.kind = .literal value) : Holds text value := by
  obtain ⟨c, more, first, visible, word⟩ := read_numeral spelled Stops.nil
  rw [List.append_nil, kind, same] at word
  rw [same] at first
  rw [Holds, tokens, first, tokensFrom_visible visible, word, tokensFrom_nil, String.ofList_toList,
    ← first, Position.start_after]

/-- An integer or a finite float that is printed is read as one word, which is that number again, bit
for bit. -/
theorem numbers_reread :
    (∀ n : Int64, Holds (Value.integer n).print (.integer n)) ∧
      ∀ b : UInt64, (Binary64.ofBits b).isFinite = true →
        Holds (Value.float (Binary64.ofBits b)).print (.float (Binary64.ofBits b)) ∧
          (Binary64.ofBits b).toBits = b := by
  constructor
  · intro n
    obtain ⟨numeral, spelled, text, kind⟩ := Numeral.exists_integer n
    exact holds_of_numeral spelled text kind
  · intro b finite
    obtain ⟨numeral, spelled, text, kind⟩ := Binary64.exists_numeral finite
    exact ⟨holds_of_numeral spelled text kind, Binary64.toBits_ofBits b⟩

/-- The float next to negative zero. -/
theorem numbers_reread_least :
    let x := Binary64.ofBits 0x8000000000000001
    x.isFinite = true ∧ (Value.float x).print = "-5e-324" ∧ Holds "-5e-324" (.float x) ∧
      x.toBits = 0x8000000000000001 := by
  intro x
  have finite : x.isFinite = true := by decide
  have printed : (Value.float x).print = "-5e-324" := by decide +kernel
  obtain ⟨holds, bits⟩ := numbers_reread.2 0x8000000000000001 finite
  exact ⟨finite, printed, printed ▸ holds, bits⟩

end Token
end TypedCommands
