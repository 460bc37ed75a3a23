import TypedCommands.Number.Digits
import TypedCommands.Token

/-! Numeric literals. A numeral is a sign, digits, perhaps a fraction and perhaps an exponent; it
takes all it can from the front of a text. One with a fraction or an exponent is a float. -/
namespace TypedCommands

structure Numeral where
  negative : Bool
  whole : List Char
  /-- What follows the point, if there is a point. -/
  fraction : Option (List Char)
  /-- The mark, the sign if any, and the digits of the exponent. -/
  exponent : Option (Char × Option Char × List Char)
  deriving DecidableEq

namespace Numeral

def tooLarge : String := "integer literal out of range"
def infinite : String := "float literal out of range"
def malformed : String := "malformed numeric literal"

def fractionText : Option (List Char) → List Char
  | none => []
  | some ds => '.' :: ds

def exponentText : Option (Char × Option Char × List Char) → List Char
  | none => []
  | some (mark, sign, ds) => mark :: (sign.toList ++ ds)

def text (n : Numeral) : List Char :=
  (if n.negative then ['-'] else []) ++ n.whole ++ fractionText n.fraction ++ exponentText n.exponent

def takeSign : List Char → Bool × List Char
  | '-' :: cs => (true, cs)
  | cs => (false, cs)

def takeFraction : List Char → Option (List Char) × List Char
  | '.' :: cs => (some (cs.takeWhile Char.isDigit), cs.dropWhile Char.isDigit)
  | cs => (none, cs)

def takeExponentSign : List Char → Option Char × List Char
  | '+' :: cs => (some '+', cs)
  | '-' :: cs => (some '-', cs)
  | cs => (none, cs)

/-- The digits after an exponent's mark, and the sign that may stand before them. -/
def takeExponentDigits (cs : List Char) : Option (Option Char × List Char × List Char) :=
  let (sign, cs) := takeExponentSign cs
  match cs.takeWhile Char.isDigit with
  | [] => none
  | d :: ds => some (sign, d :: ds, cs.dropWhile Char.isDigit)

/-- A mark without digits is no exponent. -/
def takeExponent : List Char → Option (Char × Option Char × List Char) × List Char
  | c :: cs =>
    if c == 'e' || c == 'E' then
      match takeExponentDigits cs with
      | some (sign, digits, rest) => (some (c, sign, digits), rest)
      | none => (none, c :: cs)
    else (none, c :: cs)
  | [] => (none, [])

/-- The longest numeral at the front of a text, and what follows it. -/
def take (cs : List Char) : Numeral × List Char :=
  let (negative, cs) := takeSign cs
  let whole := cs.takeWhile Char.isDigit
  let (fraction, cs) := takeFraction (cs.dropWhile Char.isDigit)
  let (exponent, cs) := takeExponent cs
  (⟨negative, whole, fraction, exponent⟩, cs)

def isInteger (n : Numeral) : Bool := n.fraction.isNone && n.exponent.isNone

def integerValue (n : Numeral) : Int :=
  if n.negative then -(Digits.value n.whole : Int) else Digits.value n.whole

/-- An exponent that has come this far takes no further digits. -/
def fullExponent : Nat := 65536

def exponentDigits (ds : List Char) : Nat :=
  ds.foldl (fun n c => if n < fullExponent then 10 * n + Digits.ofChar c else n) 0

def exponentValue : Option (Char × Option Char × List Char) → Int
  | none => 0
  | some (_, sign, ds) => if sign = some '-' then -(exponentDigits ds : Int) else exponentDigits ds

/-- The value, rounded to the nearest float. -/
def floatValue (n : Numeral) : Binary64 :=
  let fraction := n.fraction.getD []
  Binary64.ofDecimal n.negative (Digits.value (n.whole ++ fraction))
    (exponentValue n.exponent - fraction.length)

/-- The literal that a numeral denotes, if it is in range. -/
def kind (n : Numeral) : Token.Kind :=
  if n.isInteger then
    if Int64.minValue.toInt ≤ n.integerValue ∧ n.integerValue ≤ Int64.maxValue.toInt then
      .literal (.integer (Int64.ofInt n.integerValue))
    else .invalid tooLarge
  else if n.floatValue.isFinite then .literal (.float n.floatValue)
  else .invalid infinite

theorem takeSign_text (cs : List Char) :
    (if (takeSign cs).1 then ['-'] else []) ++ (takeSign cs).2 = cs := by
  unfold takeSign
  split <;> simp

theorem takeFraction_text (cs : List Char) :
    fractionText (takeFraction cs).1 ++ (takeFraction cs).2 = cs := by
  unfold takeFraction
  split <;> simp [fractionText, List.takeWhile_append_dropWhile]

theorem takeExponentSign_text (cs : List Char) :
    (takeExponentSign cs).1.toList ++ (takeExponentSign cs).2 = cs := by
  unfold takeExponentSign
  split <;> simp

theorem takeExponentDigits_text {cs : List Char} {sign ds rest}
    (h : takeExponentDigits cs = some (sign, ds, rest)) : sign.toList ++ (ds ++ rest) = cs := by
  unfold takeExponentDigits at h
  split at h
  rename_i s r hs
  split at h
  · cases h
  · rename_i d ds' hd
    cases h
    rw [← hd, List.takeWhile_append_dropWhile]
    have := takeExponentSign_text cs
    rwa [hs] at this

theorem takeExponent_text (cs : List Char) :
    exponentText (takeExponent cs).1 ++ (takeExponent cs).2 = cs := by
  unfold takeExponent
  split
  · split
    · split
      · rename_i h; simp [exponentText, ← takeExponentDigits_text h]
      · rfl
    · rfl
  · rfl

/-- Nothing is lost. -/
theorem take_text (cs : List Char) : (take cs).1.text ++ (take cs).2 = cs := by
  simp only [take, text, List.append_assoc, takeExponent_text, takeFraction_text,
    List.takeWhile_append_dropWhile]
  exact takeSign_text cs

theorem text_ne_nil {n : Numeral} (h : n.negative = true ∨ n.whole ≠ []) : n.text ≠ [] := by
  rcases h with h | h <;> simp [text, h]

end Numeral
end TypedCommands
