/-! The characters of a document, and the runs of blank characters in its scalars. -/
namespace TypedCommands.Yaml

/-- Line breaks, after `unifyBreaks`. -/
def isBreak (c : Char) : Bool := c == '\n' || c == '\u2028' || c == '\u2029'

def isSpace (c : Char) : Bool := c == ' ' || c == '\t'

def byteOrderMark : Char := '\uFEFF'

def isGap (c : Char) : Bool := isSpace c || isBreak c

/-- Whether a gap or the end of the text comes next. -/
def gapNext : List Char → Bool
  | [] => true
  | c :: _ => isGap c

/-- Writes every line break of one line as a newline. -/
def unifyBreaks : List Char → List Char
  | [] => []
  | '\r' :: '\n' :: cs => '\n' :: unifyBreaks cs
  | c :: cs => (if c = '\r' ∨ c = '\u0085' then '\n' else c) :: unifyBreaks cs

/-- Control characters have no place in a document. -/
def isAllowed (c : Char) : Bool :=
  c == '\t' || c == '\n' || c == '\r' || c == '\u0085' ||
  (decide (0x20 ≤ c.toNat) && decide (c.toNat ≤ 0x7E)) ||
  (decide (0xA0 ≤ c.toNat) && decide (c.toNat ≤ 0xFFFD)) ||
  decide (0x10000 ≤ c.toNat)

/-- Whether a line that begins with `c` and goes on with `next` begins with a document marker. -/
def startsMarker (c : Char) (next : List Char) : Bool :=
  (c == '-' || c == '.') &&
    match next with
    | d :: e :: rest => d == c && e == c && gapNext rest
    | _ => false

def flowIndicators : List Char := [',', '[', ']', '{', '}']

/-- What a plain scalar cannot begin with; `-` and `:` can when no gap follows. -/
def indicators : List Char :=
  flowIndicators ++ ['#', '&', '*', '!', '|', '>', '\'', '"', '%', '@', '\x60']

/-- Blank characters within a scalar. A break hides the spaces around it. -/
structure Gap where
  /-- The last one first. -/
  spaces : List Char
  broken : Bool
  /-- The first break, unless it was escaped. -/
  first : Option Char
  /-- The breaks after it, the last one first. -/
  more : List Char

namespace Gap

def empty : Gap := ⟨[], false, none, []⟩

/-- A break that an escape hides. -/
def hidden : Gap := ⟨[], true, none, []⟩

def addSpace (g : Gap) (c : Char) : Gap :=
  if g.broken then g else { g with spaces := c :: g.spaces }

def addBreak (g : Gap) (c : Char) : Gap :=
  if g.broken then { g with more := c :: g.more } else ⟨[], true, some c, []⟩

/-- What the gap stands for, the last character first: a single newline is a space, and of several
the first is dropped. -/
def folded (g : Gap) : List Char :=
  if !g.broken then g.spaces
  else
    match g.first with
    | some '\n' => if g.more = [] then [' '] else g.more
    | some c => g.more ++ [c]
    | none => g.more

end Gap
end TypedCommands.Yaml
