import TypedCommands.Token

/-! String literals: characters between double quotes on one line, where a backslash and the
character after it stand for one character. -/
namespace TypedCommands.Quoted

def unterminated : String := "unterminated string literal"
def unknownEscape (c : Char) : String := s!"unknown escape sequence '\\{c}'"

/-- What a backslash and this character stand for. -/
def escaped : Char → Option Char
  | 'n' => some '\n'
  | 't' => some '\t'
  | 'r' => some '\r'
  | '0' => some '\x00'
  | '\\' => some '\\'
  | '"' => some '"'
  | '\'' => some '\''
  | _ => none

/-- Splits a text before the quote or the newline that ends a string, or at its end. A backslash
guards the character after it, unless that is a newline. -/
def split (taken : List Char) : List Char → List Char × List Char
  | [] => (taken.reverse, [])
  | '\\' :: c :: cs =>
    if c = '\n' then (('\\' :: taken).reverse, c :: cs) else split (c :: '\\' :: taken) cs
  | c :: cs => if c = '"' ∨ c = '\n' then (taken.reverse, c :: cs) else split (c :: taken) cs

/-- The characters that a body stands for, and its first unknown escape. -/
def decode (value : List Char) (unknown : Option Char) : List Char → List Char × Option Char
  | [] => (value.reverse, unknown)
  | '\\' :: c :: cs =>
    match escaped c with
    | some d => decode (d :: value) unknown cs
    | none => decode value (unknown.or (some c)) cs
  | c :: cs => decode (c :: value) unknown cs

/-- The token of a string that was closed. -/
def kind (body : List Char) : Token.Kind :=
  match decode [] none body with
  | (value, none) => .literal (.text (String.ofList value))
  | (_, some c) => .invalid (unknownEscape c)

/-- The string whose opening quote stood before the text: its kind, its text, and what follows. -/
def take (cs : List Char) : Token.Kind × List Char × List Char :=
  match split [] cs with
  | (body, '"' :: rest) => (kind body, '"' :: (body ++ ['"']), rest)
  | (body, rest) => (.invalid unterminated, '"' :: body, rest)

theorem split_text (taken cs : List Char) :
    (split taken cs).1 ++ (split taken cs).2 = taken.reverse ++ cs := by
  fun_induction split taken cs with
  | case1 => simp
  | case2 => simp
  | case3 taken c cs h ih => simp [ih]
  | case4 => simp
  | case5 taken c cs _ h ih => simp [ih]

/-- Nothing is lost. -/
theorem take_text (cs : List Char) : (take cs).2.1 ++ (take cs).2.2 = '"' :: cs := by
  have h := split_text [] cs
  unfold take
  split <;> rename_i hs <;> rw [hs] at h <;> simpa using h

end TypedCommands.Quoted
