import TypedCommands.Number.Binary64
import TypedCommands.Number.Digits
import TypedCommands.Token.Numeral
import TypedCommands.Yaml.Token.Character

/-! How texts and numbers are written as scalars. -/
namespace TypedCommands.Yaml

/-- The number with these digits, if all are digits of the base. -/
def valueIn (base : Nat) (ds : List Char) : Option Nat :=
  if ds = [] then none
  else (ds.reverse.mapM fun c => (Digits.ofHex? c).filter (· < base)).map
    (Digits.joinedSum base ds.length)

/-- Digits behind a prefix that names their base; several digits must not begin with a zero. -/
def naturalDigits : List Char → Option Nat
  | '0' :: 'x' :: ds => valueIn 16 ds
  | '0' :: 'o' :: ds => valueIn 8 ds
  | '0' :: 'b' :: ds => valueIn 2 ds
  | ['0'] => some 0
  | '0' :: _ => none
  | ds => valueIn 10 ds

/-- The natural number that a plain scalar denotes. -/
def naturalOf : List Char → Option Nat
  | '+' :: cs => naturalDigits cs
  | cs => naturalDigits cs

/-- Integers are numbers of 128 bits: unsigned ones, or negative ones in two's complement. -/
def isInteger : List Char → Bool
  | '-' :: cs => (naturalDigits cs).any (· ≤ 1 <<< 127)
  | cs => (naturalOf cs).any (· < 1 <<< 128)

/-- Several digits, perhaps after a sign, of which the first is a zero. -/
def isPadded (cs : List Char) : Bool :=
  let digits := match cs with
    | '+' :: cs | '-' :: cs => cs
    | cs => cs
  match digits with
  | '0' :: d :: ds => (d :: ds).all Char.isDigit
  | _ => false

/-- Digits with a point or an exponent, if their value is finite. -/
def isFloat (cs : List Char) : Bool :=
  let cs := match cs with
    | '+' :: '-' :: _ => []
    | '+' :: cs => cs
    | cs => cs
  let (n, rest) := Numeral.take cs
  rest = [] && !(n.whole = [] && n.fraction.getD [] = []) && n.floatValue.isFinite

def words : List String :=
  ["", "~", "null", "Null", "NULL", "true", "True", "TRUE", "false", "False", "FALSE",
   ".inf", ".Inf", ".INF", "+.inf", "+.Inf", "+.INF", "-.inf", "-.Inf", "-.INF",
   ".nan", ".NaN", ".NAN"]

/-- A text that would be taken for something else. -/
def isAmbiguous (s : String) : Bool :=
  words.contains s || isInteger s.toList || isFloat s.toList || isPadded s.toList

/-- Characters that are written as themselves. -/
def isPrintable (c : Char) : Bool :=
  (decide (0x20 ≤ c.toNat) && decide (c.toNat ≤ 0x7E)) ||
  (decide (0xA0 ≤ c.toNat) && decide (c.toNat ≤ 0xFFFD) && c != byteOrderMark && !isBreak c) ||
  decide (0x10000 ≤ c.toNat)

/-- Whether nothing within a plain scalar ends it; `spaced` says that a space came before. -/
def plainGoesOn (spaced : Bool) : List Char → Bool
  | [] => !spaced
  | c :: cs => !(c == '#' && spaced) && !(c == ':' && gapNext cs) && plainGoesOn (c == ' ') cs

def plainBegins : List Char → Bool
  | [] => false
  | c :: cs =>
    !indicators.contains c && c != ' ' && !((c == '-' || c == '.') && cs.take 2 == [c, c]) &&
      !((c == '-' || c == '?' || c == ':') && gapNext cs)

/-- A text that is written without quotes. -/
def isPlain (s : String) : Bool :=
  let cs := s.toList
  cs.all isPrintable && plainBegins cs && plainGoesOn false cs && !isAmbiguous s

def hexText (width n : Nat) : List Char :=
  let ds := (Nat.toDigits 16 n).map Char.toUpper
  List.replicate (width - ds.length) '0' ++ ds

def escape (c : Char) : List Char :=
  if c = '"' then ['\\', '"']
  else if c = '\\' then ['\\', '\\']
  else if isPrintable c then [c]
  else if c = '\n' then ['\\', 'n']
  else if c = '\t' then ['\\', 't']
  else if c = '\r' then ['\\', 'r']
  else if c.toNat < 0x100 then '\\' :: 'x' :: hexText 2 c.toNat
  else if c.toNat < 0x10000 then '\\' :: 'u' :: hexText 4 c.toNat
  else '\\' :: 'U' :: hexText 8 c.toNat

/-- A text as a scalar: plain if it can be, else in single quotes, else in double quotes. -/
def scalarText (s : String) : String :=
  if isPlain s then s
  else if s.toList.all isPrintable then
    String.ofList ('\'' :: s.toList.flatMap (fun c => if c = '\'' then [c, c] else [c]) ++ ['\''])
  else String.ofList ('"' :: s.toList.flatMap escape ++ ['"'])

end TypedCommands.Yaml
