import TypedCommands.Number.Shortest

/-! How a floating-point number is printed. -/
namespace TypedCommands.Binary64

/-- Which numbers are written positionally, by the exponent of their leading digit, and how the
rest is spelled. -/
structure Style where
  leastPlain : Int
  endPlain : Int
  point : Char
  exponentMark : Char
  minus : String
  notANumber : String
  infinity : String

/-- Positional from `1e-4` up to but not including `1e16`, else with an exponent; a positional
number always has a fraction. -/
def style : Style := ⟨-4, 16, '.', 'e', "-", "NaN", "inf"⟩

/-- Digits with the point after the first, and the exponent of the first digit. -/
def scientific (s : Style) (digits : List Char) (exponent : Int) : List Char :=
  let mantissa := match digits with
    | [] => ['0']
    | [d] => [d]
    | d :: ds => d :: s.point :: ds
  mantissa ++ s.exponentMark :: (toString exponent).toList

def positional (s : Style) (digits : List Char) (exponent : Int) : List Char :=
  let zeros (n : Nat) := List.replicate n '0'
  match exponent with
  | .ofNat e =>
    let whole := digits.take (e + 1)
    let fraction := digits.drop (e + 1)
    whole ++ zeros (e + 1 - digits.length) ++ s.point :: (if fraction = [] then ['0'] else fraction)
  | .negSucc e => '0' :: s.point :: (zeros e ++ digits)

/-- A finite magnitude in the given style. -/
def magnitudeText (s : Style) (magnitude : Nat) : List Char :=
  if magnitude = 0 then positional s ['0'] 0
  else
    let d := shortest magnitude
    let digits := Nat.toDigits 10 d.digits
    let exponent : Int := (digits.length : Int) - 1 + d.exponent - places
    if s.leastPlain ≤ exponent ∧ exponent < s.endPlain then positional s digits exponent
    else scientific s digits exponent

def text (x : Binary64) : String :=
  if x.isNaN then style.notANumber
  else
    (if x.negative then style.minus else "") ++
      (if x.isInfinite then style.infinity else String.ofList (magnitudeText style x.magnitude))

end TypedCommands.Binary64
