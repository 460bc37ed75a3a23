/-! The lines of a text as a report shows them. -/
namespace TypedCommands.Text

/-- The pieces between newlines; always one more than there are newlines. -/
def pieces : List Char → List (List Char)
  | cs => go [] [] cs
where
  go (done : List (List Char)) (line : List Char) : List Char → List (List Char)
    | [] => (line.reverse :: done).reverse
    | c :: cs =>
      if c = '\n' then go (line.reverse :: done) [] cs else go done (c :: line) cs

/-- One character takes one column: a tab is shown as a space, a carriage return not at all. -/
def flatten (line : List Char) : List Char :=
  (line.filter (· ≠ '\r')).map fun c => if c = '\t' then ' ' else c

/-- The lines of a text, ready to be shown. -/
def shownLines (source : String) : List String :=
  (pieces source.toList).map fun line => String.ofList (flatten line)

/-- Line `n`, counted from 1; a line that the text lacks is empty. -/
def line (lines : List String) (n : Nat) : String := lines.getD (n - 1) ""

def spaces (n : Nat) : String := String.ofList (List.replicate n ' ')

/-- A line and, under it, a caret at the column. -/
def caret (line : String) (column : Nat) : String := line ++ "\n" ++ spaces (column - 1) ++ "^"

theorem pieces_go (cs : List Char) (done : List (List Char)) (line : List Char) :
    pieces.go done line cs = done.reverse ++ pieces.go [] line cs := by
  induction cs generalizing done line with
  | nil => simp [pieces.go]
  | cons c cs ih =>
    simp only [pieces.go]
    split
    · rw [ih (line.reverse :: done), ih [line.reverse]]
      simp
    · exact ih done (c :: line)

@[simp] theorem pieces_nil : pieces [] = [[]] := rfl

end TypedCommands.Text
