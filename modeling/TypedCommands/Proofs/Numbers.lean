import TypedCommands.Proofs.Names
import TypedCommands.Proofs.Reckoning
import TypedCommands.Proofs.Starts

/-! Numbers in a text. The token is the longest numeral that stands there, with the letters and
digits right behind it; without any it is the integer or the nearest float that the numeral is
worth, if that is in range. -/
namespace TypedCommands

namespace Numeral

/-- The kinds of token that a numeral makes when it is worth `v`. -/
inductive Denotes (n : Numeral) (v : ℚ) : Token.Kind → Prop
  | integer (i : Int64) (whole : n.fraction = none ∧ n.exponent = none) (exact : (i.toInt : ℚ) = v) :
      Denotes n v (.literal (.integer i))
  | tooLarge (whole : n.fraction = none ∧ n.exponent = none)
      (outside : v < -2 ^ 63 ∨ 2 ^ 63 - 1 < v) :
      Denotes n v (.invalid "integer literal out of range")
  | float {x : Binary64} (split : n.fraction ≠ none ∨ n.exponent ≠ none)
      (sign : x.negative = n.negative) (nearest : x.IsNearest v) (finite : x.isFinite = true) :
      Denotes n v (.literal (.float x))
  | infinite {x : Binary64} (split : n.fraction ≠ none ∨ n.exponent ≠ none)
      (sign : x.negative = n.negative) (nearest : x.IsNearest v) (infinite : x.isFinite = false) :
      Denotes n v (.invalid "float literal out of range")

theorem int64_range (i : Int64) : -2 ^ 63 ≤ (i.toInt : ℚ) ∧ (i.toInt : ℚ) ≤ 2 ^ 63 - 1 := by
  have lower : -2 ^ 63 ≤ i.toInt := i.minValue_le_toInt
  have upper : i.toInt ≤ 2 ^ 63 - 1 := i.toInt_le
  exact ⟨by exact_mod_cast lower, by exact_mod_cast upper⟩

/-- The value tells the kind. -/
theorem Denotes.unique {n : Numeral} {v : ℚ} {k k' : Token.Kind} (h : Denotes n v k)
    (h' : Denotes n v k') : k = k' := by
  have apart (whole : n.fraction = none ∧ n.exponent = none) :
      ¬(n.fraction ≠ none ∨ n.exponent ≠ none) := by
    rw [not_or, not_not, not_not]
    exact whole
  cases h with
  | integer i whole exact =>
    cases h' with
    | integer j _ exact' =>
      have same : i.toInt = j.toInt := by exact_mod_cast exact.trans exact'.symm
      rw [Int64.toInt_inj.mp same]
    | tooLarge _ outside =>
      obtain ⟨lower, upper⟩ := int64_range i
      rcases outside with low | high <;> linarith
    | float split | infinite split => exact absurd split (apart whole)
  | tooLarge whole outside =>
    cases h' with
    | integer i _ exact =>
      obtain ⟨lower, upper⟩ := int64_range i
      rcases outside with low | high <;> linarith
    | tooLarge => rfl
    | float split | infinite split => exact absurd split (apart whole)
  | float split sign nearest finite =>
    cases h' with
    | integer _ whole | tooLarge whole => exact absurd split (apart whole)
    | float _ sign' nearest' => rw [nearest.unique nearest' (sign.trans sign'.symm)]
    | infinite _ sign' nearest' infinite =>
      rw [← nearest.unique nearest' (sign.trans sign'.symm), finite] at infinite
      cases infinite
  | infinite split sign nearest infinite =>
    cases h' with
    | integer _ whole | tooLarge whole => exact absurd split (apart whole)
    | float _ sign' nearest' finite =>
      rw [← nearest.unique nearest' (sign.trans sign'.symm), infinite] at finite
      cases finite
    | infinite => rfl

theorem isInteger_iff {n : Numeral} :
    n.isInteger = true ↔ n.fraction = none ∧ n.exponent = none := by
  rw [isInteger, Bool.and_eq_true, Option.isNone_iff_eq_none, Option.isNone_iff_eq_none]

theorem reckoned_of_whole {n : Numeral} (whole : n.fraction = none ∧ n.exponent = none) :
    n.reckoned = n.integerValue := by
  obtain ⟨negative, ds, fraction, exponent⟩ := n
  obtain ⟨rfl, rfl⟩ := whole
  have plain : (⟨negative, ds, none, none⟩ : Numeral).Plain :=
    .inl (show (0 : ℤ).natAbs < 655360 by decide)
  rw [reckoned, if_pos plain, integerValue, value_eq_number]
  cases negative <;>
    simp [decimal, scaled, writtenExponent, digits, Binary64.sign]

theorem kind_denotes {n : Numeral} (h : n.Spelled) : Denotes n n.reckoned n.kind := by
  by_cases whole : n.isInteger = true
  · have parts := isInteger_iff.mp whole
    have value := reckoned_of_whole parts
    have bounds : Int64.minValue.toInt = -2 ^ 63 ∧ Int64.maxValue.toInt = 2 ^ 63 - 1 := by decide
    rw [kind, if_pos whole]
    split
    · rename_i inside
      rw [bounds.1, bounds.2] at inside
      refine .integer _ parts ?_
      rw [value, Int64.toInt_ofInt_of_le inside.1 (by omega)]
    · rename_i outside
      refine .tooLarge parts ?_
      rw [value]
      rw [bounds.1, bounds.2, not_and_or, not_le, not_le] at outside
      exact_mod_cast outside
  · have split : n.fraction ≠ none ∨ n.exponent ≠ none := by
      rw [← not_and_or, ← isInteger_iff]
      exact whole
    have nearest := floatValue_isNearest h
    rw [kind, if_neg whole]
    split
    · rename_i finite
      exact .float split rfl nearest finite
    · rename_i infinite
      exact .infinite split rfl nearest (Bool.eq_false_iff.mpr infinite)

end Numeral

namespace Token

/-- What the grammar makes of a text that begins with a numeral, where numerals are worth `value`. -/
structure Reads (value : Numeral → ℚ) (cs : List Char) (n : Numeral) (tail rest : List Char)
    (t : Token) : Prop where
  longest : n.Longest cs
  spelled : cs = n.text ++ tail ++ rest
  behind : ∀ c ∈ tail, Name.Letter c ∨ Name.Figure c ∨ c = '_'
  stops : ∀ c ∈ rest.head?, ¬(Name.Letter c ∨ Name.Figure c ∨ c = '_')
  text : t.text.toList = n.text ++ tail
  alone : tail = [] → n.Denotes (value n) t.kind
  glued : tail ≠ [] → t.kind = .invalid "malformed numeric literal"

theorem startsNumber_iff {c : Char} {cs : List Char} : startsNumber c cs = true ↔
    Name.Figure c ∨ (c = '-' ∧ ∃ d ∈ cs.head?, Name.Figure d) := by
  simp only [startsNumber, Bool.or_eq_true, Bool.and_eq_true, beq_iff_eq, Option.any_eq_true,
    Name.isDigit_iff, Option.mem_def]

/-- What is read where a numeral starts is what the grammar asks for. -/
theorem readNumber_reads {c : Char} {cs : List Char} {t : Token} (starts : startsNumber c cs = true)
    (kind : t.kind = (readNumber (c :: cs)).kind)
    (text : t.text.toList = (readNumber (c :: cs)).text) :
    Reads Numeral.reckoned (c :: cs) (Numeral.take (c :: cs)).1
      ((Numeral.take (c :: cs)).2.takeWhile Name.isPart)
      ((Numeral.take (c :: cs)).2.dropWhile Name.isPart) t where
  longest := Numeral.take_longest starts
  spelled := by
    rw [List.append_assoc, List.takeWhile_append_dropWhile, Numeral.take_text]
  behind d hd := Name.isPart_iff.mp (List.all_eq_true.mp List.all_takeWhile d hd)
  stops d hd := by
    have head := List.head?_dropWhile_not Name.isPart (Numeral.take (c :: cs)).2
    rw [hd] at head
    rw [← Name.isPart_iff, Bool.not_eq_true]
    exact head
  text := text
  alone none := by
    rw [kind.trans (if_pos none)]
    exact Numeral.kind_denotes (Numeral.take_isSpelled starts)
  glued some := kind.trans (if_neg some)

/-- A token that begins with a digit, or with a minus sign before a digit, is the longest numeral
there and the letters and digits behind it. It denotes what the numeral is worth, as far as the
numeral is read. -/
theorem numbers_read {source : String} {before : List Char} {c : Char} {cs : List Char} {t : Token}
    (stands : Stands source before (c :: cs) t)
    (starts : Name.Figure c ∨ (c = '-' ∧ ∃ d ∈ cs.head?, Name.Figure d)) :
    ∃ n tail rest, Reads Numeral.reckoned (c :: cs) n tail rest t := by
  have number : startsNumber c cs = true := startsNumber_iff.mpr starts
  obtain ⟨kind, text, -⟩ := stands.read (startsNumber_visible number)
  rw [read_number number] at kind text
  exact ⟨_, _, _, readNumber_reads number kind text⟩

/-- A mark without digits behind it, and a number with leading zeros. -/
theorem numbers_read_half_exponent :
    let source := "1.e+ -007"
    let first : Token := ⟨.invalid "malformed numeric literal", "1.e", ⟨1, 1⟩⟩
    let second : Token := ⟨.literal (.integer (-7)), "-007", ⟨1, 6⟩⟩
    Stands source [] ('1' :: ".e+ -007".toList) first ∧
      Stands source "1.e+ ".toList ('-' :: "007".toList) second ∧
      (∃ n tail rest, Reads Numeral.reckoned ('1' :: ".e+ -007".toList) n tail rest first) ∧
      ∃ n tail rest, Reads Numeral.reckoned ('-' :: "007".toList) n tail rest second := by
  intro source first second
  have words : tokens source =
      [first, ⟨.invalid "unexpected character", "+", ⟨1, 4⟩⟩, second, ⟨.finish, "", ⟨1, 10⟩⟩] := by
    decide +kernel
  have stands : Stands source [] ('1' :: ".e+ -007".toList) first :=
    ⟨by simp [words], by decide +kernel, rfl⟩
  have stands' : Stands source "1.e+ ".toList ('-' :: "007".toList) second :=
    ⟨by simp [words], by decide +kernel, by decide +kernel⟩
  have figure : Name.Figure '1' := by unfold Name.Figure; decide
  have figure' : Name.Figure '0' := by unfold Name.Figure; decide
  exact ⟨stands, stands', numbers_read stands (.inl figure),
    numbers_read stands' (.inr ⟨rfl, '0', rfl, figure'⟩)⟩

end Token

namespace Numeral

open Binary64 (sign)

/-- A decimal that begins with zeros, and an exponent that makes up for them. -/
def padded (zeros : ℕ) : Numeral :=
  ⟨true, ['0'], some (List.replicate zeros '0' ++ ['2', '5']), some ('e', none, "700000".toList)⟩

theorem number_replicate_zero (k : ℕ) (ds : List Char) :
    number (List.replicate k '0' ++ ds) = number ds := by
  induction k with
  | zero => rfl
  | succ k ih => exact ih

theorem padded_text (zeros : ℕ) :
    (padded zeros).text = '-' :: '0' :: '.' :: (List.replicate zeros '0' ++ "25e700000".toList) := by
  simp [padded, text, fractionText, exponentText]

theorem number_padded (zeros : ℕ) : number (padded zeros).digits = 25 :=
  number_replicate_zero (zeros + 1) ['2', '5']

theorem padded_spelled (zeros : ℕ) : (padded zeros).Spelled where
  whole := ⟨nofun, List.forall_mem_singleton.mpr rfl⟩
  fraction ds hds d hd := by
    cases hds
    rcases List.mem_append.mp hd with zero | last
    · rw [List.eq_of_mem_replicate zero]
      rfl
    · exact List.all_eq_true.mp (show ['2', '5'].all Char.isDigit = true from rfl) d last
  exponent mark sign ds h := by
    cases h
    exact ⟨.inl rfl, nofun, nofun, List.all_eq_true.mp rfl⟩

theorem places_padded (zeros : ℕ) : ((padded zeros).fraction.getD []).length = zeros + 2 := by
  simp [padded]

/-- The exponent is read as 70000. -/
theorem padded_floatValue (zeros : ℕ) :
    (padded zeros).floatValue = Binary64.ofDecimal true 25 (70000 - (zeros + 2 : ℕ)) := by
  have exponent : exponentValue (padded zeros).exponent = 70000 := by
    show (exponentDigits "700000".toList : ℤ) = 70000
    decide
  rw [floatValue, exponent, places_padded, value_eq_number]
  exact congrArg (Binary64.ofDecimal true · _) (number_padded zeros)

theorem padded_decimal (zeros : ℕ) :
    (padded zeros).decimal = sign true * ((25 : ℕ) * 10 ^ (700000 - (zeros + 2 : ℕ) : ℤ)) := by
  have exponent : writtenExponent (padded zeros).exponent = 700000 := by
    show (number "700000".toList : ℤ) = 700000
    decide
  rw [decimal, scaled, exponent, places_padded, number_padded]
  rfl

end Numeral

namespace Token

/-- The value of the decimal is -2.5, but its exponent is read as far as `70000` only. -/
theorem numbers_read_not_decimal :
    let cs := '-' :: '0' :: '.' :: (List.replicate 699999 '0' ++ "25e700000".toList)
    ∃ t, Stands (String.ofList cs) [] cs t ∧ t.kind = .literal (.float ⟨true, 0, by decide⟩) ∧
      ∀ n tail rest, ¬Reads Numeral.decimal cs n tail rest t := by
  have text := Numeral.padded_text 699999
  have spelled := Numeral.padded_spelled 699999
  have value := Numeral.padded_decimal 699999
  have sign : (Numeral.padded 699999).negative = true := rfl
  have split : (Numeral.padded 699999).exponent ≠ none := nofun
  have zero : (Numeral.padded 699999).floatValue = ⟨true, 0, by decide⟩ := by
    rw [Numeral.padded_floatValue, Binary64.ofDecimal]
    congr
  generalize List.replicate 699999 '0' ++ "25e700000".toList = ds at text
  generalize Numeral.padded 699999 = p at text spelled value sign split zero
  intro cs
  have taken : Numeral.take cs = (p, []) := by
    rw [← Numeral.take_text_self spelled, text]
  have longest : Numeral.Longest cs p := by
    have longest := @Numeral.take_longest '-' ('0' :: '.' :: ds) rfl
    rwa [taken] at longest
  have kind : p.kind = .literal (.float ⟨true, 0, by decide⟩) := by
    have float : ¬p.isInteger = true := fun whole => split (Numeral.isInteger_iff.mp whole).2
    rw [Numeral.kind, if_neg float, zero]
    rfl
  have word : read '-' ('0' :: '.' :: ds) = ⟨p.kind, cs, []⟩ := by
    rw [read_number rfl, readNumber, taken]
    simp [text, cs]
  let t : Token := ⟨p.kind, String.ofList cs, Position.start⟩
  have stands : Stands (String.ofList cs) [] cs t := by
    refine ⟨?_, String.toList_ofList, rfl⟩
    rw [tokens, String.toList_ofList, tokensFrom_visible (by decide), word]
    exact List.mem_cons_self
  refine ⟨t, stands, kind, fun n tail rest h => ?_⟩
  obtain rfl := h.longest.unique longest
  have alone : tail = [] := by
    have parts := congrArg List.length (h.spelled.trans (List.append_assoc ..))
    rw [show cs = n.text from text.symm, List.length_append, List.length_append] at parts
    exact List.eq_nil_of_length_eq_zero (by omega)
  have exact : n.Denotes n.decimal (.literal (.float (Binary64.ofDecimal true 25 (-1)))) := by
    rw [value]
    exact .float (.inr split) sign.symm (Binary64.ofDecimal_isNearest true 25 (-1)) (by decide +kernel)
  have same := kind.symm.trans ((h.alone alone).unique exact)
  have magnitude := congrArg Binary64.magnitude (Literal.float.inj (Kind.literal.inj same))
  revert magnitude
  decide +kernel

end Token
end TypedCommands
