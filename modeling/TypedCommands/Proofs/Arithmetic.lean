import Mathlib.Algebra.Order.Ring.Int
import Mathlib.Tactic.Linarith
import TypedCommands.Proofs.Logic
import TypedCommands.Proofs.Reckoning

/-! Integer arithmetic from the text to the value. Every spelling of an integer is read as that
integer, and the result of an operation on two of them is the exact one, or none where that is not an
integer of 64 bits. -/
namespace TypedCommands

/-- The texts of an integer: digits, with or without zeros in front, and perhaps a minus sign. -/
inductive Decimal (n : Int64) : String → Prop where
  | plain {ds : List Char} (figures : Numeral.Figures ds) (value : n.toInt = Numeral.number ds) :
      Decimal n (String.ofList ds)
  | minus {ds : List Char} (figures : Numeral.Figures ds)
      (value : n.toInt = -(Numeral.number ds : ℤ)) : Decimal n (String.ofList ('-' :: ds))

/-- The integer that a text of digits spells is the one that is read. -/
theorem Decimal.exists_numeral {n : Int64} {x : String} (h : Decimal n x) :
    ∃ m : Numeral, m.Spelled ∧ m.text = x.toList ∧ m.kind = .literal (.integer n) := by
  cases h with
  | @plain ds figures value =>
    refine ⟨⟨false, ds, none, none⟩, figures.spelled false, ?_, ?_⟩
    · simp [Numeral.text, Numeral.fractionText, Numeral.exponentText]
    · apply Numeral.kind_of_integerValue rfl
      simp [Numeral.integerValue, Numeral.value_eq_number, value]
  | @minus ds figures value =>
    refine ⟨⟨true, ds, none, none⟩, figures.spelled true, ?_, ?_⟩
    · simp [Numeral.text, Numeral.fractionText, Numeral.exponentText]
    · apply Numeral.kind_of_integerValue rfl
      simp [Numeral.integerValue, Numeral.value_eq_number, value]

theorem Token.kinds_decimal {n : Int64} {x : String} (h : Decimal n x) {rest : List Char}
    (stops : Stops rest) : kinds (x.toList ++ rest) = .literal (.integer n) :: kinds rest := by
  obtain ⟨m, spelled, text, kind⟩ := h.exists_numeral
  rw [← text, kinds_numeral spelled stops, kind]

namespace Builtin

/-- The answer of an operation whose exact result is `n`. -/
inductive Exact (n : ℤ) : Except ExecutionError Value → Prop where
  | inside (c : Int64) (exact : c.toInt = n) : Exact n (.ok (.integer c))
  | outside (outside : n < -2 ^ 63 ∨ 2 ^ 63 ≤ n) : Exact n (.error (.failed "integer overflow"))

theorem integerResult_exact (n : ℤ) : Exact n (integerResult n) := by
  have bounds : Int64.minValue.toInt = -2 ^ 63 ∧ Int64.maxValue.toInt = 2 ^ 63 - 1 := by decide
  rw [integerResult, bounds.1, bounds.2]
  split
  · rename_i inside
    exact .inside _ (Int64.toInt_ofInt_of_le inside.1 (by omega))
  · rename_i outside
    apply Exact.outside
    omega

/-- The exact result tells the answer. -/
theorem Exact.unique {n : ℤ} {answer answer' : Except ExecutionError Value} (h : Exact n answer)
    (h' : Exact n answer') : answer = answer' := by
  have range (c : Int64) : -2 ^ 63 ≤ c.toInt ∧ c.toInt < 2 ^ 63 :=
    ⟨c.minValue_le_toInt, c.toInt_lt⟩
  cases h with
  | inside c exact =>
    cases h' with
    | inside c' exact' => rw [Int64.toInt_inj.mp (exact.trans exact'.symm)]
    | outside outside =>
      have := range c
      omega
  | outside outside =>
    cases h' with
    | inside c exact =>
      have := range c
      omega
    | outside => rfl

/-- The answer of a division of `a` by `b`: there is one quotient that rounds towards zero. -/
structure Divides (a b : Int64) (answer : Except ExecutionError Value) : Prop where
  byZero : answer = .error (.failed "division by zero") ↔ b = 0
  overflow : answer = .error (.failed "integer overflow") ↔ a.toInt = -2 ^ 63 ∧ b.toInt = -1
  quotient : b ≠ 0 → ¬(a.toInt = -2 ^ 63 ∧ b.toInt = -1) → ∃ (q : Int64) (r : ℤ),
    answer = .ok (.integer q) ∧ a.toInt = q.toInt * b.toInt + r ∧ |r| < |b.toInt| ∧
      (r = 0 ∨ r.sign = a.toInt.sign)

theorem abs_tmod_lt (a : ℤ) {b : ℤ} (nonzero : b ≠ 0) : |a.tmod b| < |b| := by
  rw [Int.abs_eq_natAbs, Int.abs_eq_natAbs, Int.natAbs_tmod]
  exact_mod_cast Nat.mod_lt _ (Int.natAbs_pos.mpr nonzero)

theorem tmod_eq_zero_or_sign (a b : ℤ) : a.tmod b = 0 ∨ (a.tmod b).sign = a.sign := by
  rw [Int.sign_tmod, ← Int.sign_eq_zero_iff_zero, Int.sign_tmod]
  split
  · exact .inl rfl
  · exact .inr rfl

/-- Only one quotient of integers of 64 bits is none. -/
theorem tdiv_range {a b : ℤ} (low : -2 ^ 63 ≤ a) (high : a < 2 ^ 63) (nonzero : b ≠ 0) :
    -2 ^ 63 ≤ a.tdiv b ∧ (2 ^ 63 ≤ a.tdiv b ↔ a = -2 ^ 63 ∧ b = -1) := by
  have size := Int.natAbs_tdiv_le_natAbs a b
  refine ⟨by omega, fun large => ?_, ?_⟩
  · have division := Int.tdiv_mul_add_tmod a b
    have small := abs_tmod_lt a nonzero
    have most : a.tdiv b = 2 ^ 63 := by omega
    rw [most] at division
    rw [Int.abs_eq_natAbs, Int.abs_eq_natAbs] at small
    omega
  · rintro ⟨rfl, rfl⟩
    decide

variable {σ : Type}

/-- The operands of a command that is given two integers. -/
def integers (name : String) (a b : Int64) : Operands σ :=
  ⟨name, [.literal (.integer a), .literal (.integer b)]⟩

theorem divide_integers (name : String) (a b : Int64) :
    divide (integers name a b : Operands σ) =
      if b = 0 then .error divisionByZero else integerResult (a.toInt.tdiv b.toInt) := by
  by_cases none : b = 0
  · rw [none]
    rfl
  · rw [if_neg none]
    exact if_neg none

theorem divide_divides (name : String) (a b : Int64) :
    Divides a b (divide (integers name a b : Operands σ)) := by
  have zero : b = 0 ↔ b.toInt = 0 := Int64.toInt_inj.symm
  rw [divide_integers]
  by_cases none : b = 0
  · rw [if_pos none]
    refine ⟨⟨fun _ => none, fun _ => rfl⟩, ⟨nofun, fun least => ?_⟩, fun some => absurd none some⟩
    have := zero.mp none
    omega
  have nonzero : b.toInt ≠ 0 := mt zero.mpr none
  obtain ⟨low, high⟩ := tdiv_range a.minValue_le_toInt a.toInt_lt nonzero
  rw [if_neg none]
  have exact := integerResult_exact (a.toInt.tdiv b.toInt)
  generalize integerResult (a.toInt.tdiv b.toInt) = answer at exact ⊢
  cases exact with
  | inside q exact =>
    have least : ¬(a.toInt = -2 ^ 63 ∧ b.toInt = -1) := by
      rw [← high, ← exact]
      exact Int.not_le.mpr q.toInt_lt
    constructor
    case byZero => exact ⟨nofun, fun zero => absurd zero none⟩
    case overflow => exact ⟨nofun, fun overflow => absurd overflow least⟩
    case quotient =>
      intro _ _
      refine ⟨q, a.toInt.tmod b.toInt, rfl, ?_, abs_tmod_lt _ nonzero, tmod_eq_zero_or_sign _ _⟩
      rw [exact, Int.tdiv_mul_add_tmod]
  | outside outside =>
    have least : a.toInt = -2 ^ 63 ∧ b.toInt = -1 := high.mp (by omega)
    constructor
    case byZero => exact ⟨nofun, fun zero => absurd zero none⟩
    case overflow => exact ⟨fun _ => least, fun _ => rfl⟩
    case quotient => exact fun _ other => absurd least other

end Builtin

namespace Environment

variable {σ : Type} {env : Environment σ} {ds : List (Declaration σ)}

/-- A text whose tokens are the words of a command stands for what the command is bound to. -/
theorem check_of_words {source : String} {c : Command} {call : Call}
    (words : Token.words source = c.words) (room : c.depth ≤ maxDepth)
    (bound : env.bind c = .ok call) : env.check source = .ok call := by
  obtain ⟨d, written, same⟩ := c.written_of_words words room
  have parsed : Command.parse source = .ok d :=
    Command.parse_eq_ok_iff.mpr (Parser.run_eq_ok_iff.mpr written)
  exact check_eq_ok_iff.mpr ⟨d, parsed, Command.bind_eq_ok_of_call_eq same bound⟩

/-- A built-in command of two integers is bound if two integers are given. -/
theorem bind_integers {o : Builtin} (found : env.registry.signature? o.name = some o.signature)
    (integers : o.parameters = [⟨"Op1", .integer⟩, ⟨"Op2", .integer⟩]) {a b : Int64}
    {place first second : Position} :
    env.bind (.mk o.name place [.literal (.integer a) first, .literal (.integer b) second]) =
      .ok (.mk o.name [.literal (.integer a), .literal (.integer b)]) := by
  let c : Command :=
    .mk o.name place [.literal (.integer a) first, .literal (.integer b) second]
  have arity : c.parameters.length = o.signature.arity := by
    rw [Builtin.signature, Signature.arity, integers]
    rfl
  rw [bind, Command.bind_full (c := c) found arity, Builtin.signature, integers]
  rfl

/-- A built-in command of two integers is run on the integers that the text spells. -/
theorem run_integers (h : Registry.build ds = .ok env.registry) {o : Builtin}
    (declared : o.declaration ∈ ds)
    (integers : o.parameters = [⟨"Op1", .integer⟩, ⟨"Op2", .integer⟩])
    {a b : Int64} {x y : String} (hx : Decimal a x) (hy : Decimal b y) (s : σ) :
    env.run (o.name ++ " " ++ x ++ " " ++ y) s =
      (o.run (Builtin.integers o.name a b)).outcome o.name s := by
  let c : Command :=
    .mk o.name .start [.literal (.integer a) .start, .literal (.integer b) .start]
  have named : Name.isName o.name = true := by cases o <;> decide
  have kinds : Token.kinds (o.name ++ " " ++ x ++ " " ++ y).toList = c.words ++ [.finish] := by
    have text : (o.name ++ " " ++ x ++ " " ++ y).toList =
        o.name.toList ++ ' ' :: (x.toList ++ ' ' :: (y.toList ++ [])) := by simp
    rw [text, Token.kinds_name named (Stops.space _).isPart, Token.kinds_space,
      Token.kinds_decimal hx (Stops.space _), Token.kinds_space, Token.kinds_decimal hy Stops.nil,
      Token.kinds_nil, String.ofList_toList]
    rfl
  obtain ⟨signature, handler⟩ := Registry.found_of_signature h declared o.declaration_signature
  have bound : env.bind c = .ok (.mk o.name [.literal (.integer a), .literal (.integer b)]) :=
    bind_integers signature integers
  have checked := check_of_words (Token.map_kind_body kinds) (Nat.zero_le 64) bound
  have executed : env.execute (.mk o.name [.literal (.integer a), .literal (.integer b)]) = _ :=
    execute_eq handler
  rw [run_of_check_eq_ok checked, executed]
  rfl

end Environment

/-- The arithmetic commands over any spellings of two integers give the exact sum, difference and
product, or fail where that is out of range; a division fails by zero, and over its one quotient that
is out of range, and rounds towards zero otherwise; equal are equal integers and no others. -/
theorem arithmetic_exact {σ : Type} {ds : List (Declaration σ)} {env : Environment σ}
    (h : Registry.build ds = .ok env.registry)
    (declared : ∀ o ∈ [Builtin.add, .sub, .mul, .div, .equal], o.declaration ∈ ds)
    {a b : Int64} {x y : String} (hx : Decimal a x) (hy : Decimal b y) (s : σ) :
    (∃ answer, Builtin.Exact (a.toInt + b.toInt) answer ∧
      env.run ("Add " ++ x ++ " " ++ y) s = (answer.mapError (.execution "Add"), s)) ∧
    (∃ answer, Builtin.Exact (a.toInt - b.toInt) answer ∧
      env.run ("Sub " ++ x ++ " " ++ y) s = (answer.mapError (.execution "Sub"), s)) ∧
    (∃ answer, Builtin.Exact (a.toInt * b.toInt) answer ∧
      env.run ("Mul " ++ x ++ " " ++ y) s = (answer.mapError (.execution "Mul"), s)) ∧
    (∃ answer, Builtin.Divides a b answer ∧
      env.run ("Div " ++ x ++ " " ++ y) s = (answer.mapError (.execution "Div"), s)) ∧
    env.run ("Equal " ++ x ++ " " ++ y) s = (.ok (.integer (if a = b then 1 else 0)), s) := by
  have run (o : Builtin) (mem : o ∈ [Builtin.add, .sub, .mul, .div, .equal])
      (integers : o.parameters = [⟨"Op1", .integer⟩, ⟨"Op2", .integer⟩]) :=
    Environment.run_integers h (declared o mem) integers hx hy s
  refine ⟨⟨_, Builtin.integerResult_exact _, ?_⟩, ⟨_, Builtin.integerResult_exact _, ?_⟩,
    ⟨_, Builtin.integerResult_exact _, ?_⟩, ⟨_, Builtin.divide_divides "Div" a b (σ := σ), ?_⟩, ?_⟩
  · exact run .add (by decide) rfl
  · exact run .sub (by decide) rfl
  · exact run .mul (by decide) rfl
  · exact run .div (by decide) rfl
  · have same : Value.ofBool (decide (a = b)) = .integer (if a = b then 1 else 0) := by
      simp [Value.ofBool]
    rw [← same]
    exact run .equal (by decide) rfl

/-- The least integer, and a spelling of minus one with a zero in front. -/
theorem arithmetic_exact_least : ∃ env : Environment Unit,
    Registry.build Builtin.declarations = .ok env.registry ∧
      Decimal Int64.minValue "-9223372036854775808" ∧ Decimal (-1) "-01" ∧
      env.run "Sub -9223372036854775808 -01" () = (.ok (.integer (-9223372036854775807)), ()) ∧
      env.run "Div -9223372036854775808 -01" () =
        (.error (.execution "Div" (.failed "integer overflow")), ()) := by
  obtain ⟨r, h⟩ := Builtin.build_declarations (σ := Unit)
  let env : Environment Unit := ⟨r, .simple⟩
  have built : Registry.build Builtin.declarations = .ok env.registry := h
  have figures (ds : List Char) (some : ds ≠ []) (digits : ds.all Char.isDigit = true) :
      Numeral.Figures ds := ⟨some, List.all_eq_true.mp digits⟩
  have least : Decimal Int64.minValue "-9223372036854775808" :=
    .minus (figures "9223372036854775808".toList (by decide) (by decide)) (by decide)
  have one : Decimal (-1) "-01" :=
    .minus (figures "01".toList (by decide) (by decide)) (by decide)
  obtain ⟨-, ⟨difference, exact, sub⟩, -, ⟨quotient, divides, div⟩, -⟩ :=
    arithmetic_exact built (fun o _ => o.declaration_mem) least one ()
  refine ⟨env, built, least, one, sub.trans ?_, div.trans ?_⟩
  · rw [exact.unique (.inside (-9223372036854775807) (by decide))]
    rfl
  · rw [divides.overflow.mpr (by decide)]
    rfl

end TypedCommands
