import TypedCommands.Text.Blank
import TypedCommands.Token.Name
import TypedCommands.Token.Numeral
import TypedCommands.Token.Quoted

/-! The tokens of a text. Each token takes the longest text it can; what no token begins with is a
token of its own, an invalid one. Blank characters stand between tokens and are dropped. -/
namespace TypedCommands.Token

def unexpected : String := "unexpected character"

/-- What the front of a text was read as. -/
structure Reading where
  kind : Kind
  text : List Char
  rest : List Char

/-- Letters and digits right behind a numeral spoil it. -/
def readNumber (cs : List Char) : Reading :=
  let (numeral, cs) := Numeral.take cs
  let tail := cs.takeWhile Name.isPart
  { kind := if tail = [] then numeral.kind else .invalid Numeral.malformed
    text := numeral.text ++ tail
    rest := cs.dropWhile Name.isPart }

def readName (cs : List Char) : Reading :=
  let name := cs.takeWhile Name.isPart
  ⟨.identifier (String.ofList name), name, cs.dropWhile Name.isPart⟩

def readString (cs : List Char) : Reading :=
  let (kind, text, rest) := Quoted.take cs
  ⟨kind, text, rest⟩

def startsNumber (c : Char) (cs : List Char) : Bool :=
  c.isDigit || (c == '-' && (cs.head?.any Char.isDigit))

/-- Reads the token that begins with `c`. -/
def read (c : Char) (cs : List Char) : Reading :=
  if c = '(' then ⟨.opening, [c], cs⟩
  else if c = ')' then ⟨.closing, [c], cs⟩
  else if c = '"' then readString cs
  else if startsNumber c cs then readNumber (c :: cs)
  else if Name.isHead c then readName (c :: cs)
  else ⟨.invalid unexpected, [c], cs⟩

/-- Nothing is lost. -/
theorem read_text (c : Char) (cs : List Char) : (read c cs).text ++ (read c cs).rest = c :: cs := by
  unfold read
  split
  · rfl
  split
  · rfl
  split
  · rename_i h; subst h; exact Quoted.take_text cs
  split
  · simp only [readNumber, List.append_assoc, List.takeWhile_append_dropWhile]
    exact Numeral.take_text (c :: cs)
  split
  · exact List.takeWhile_append_dropWhile
  · rfl

theorem read_text_ne_nil (c : Char) (cs : List Char) : (read c cs).text ≠ [] := by
  unfold read
  split
  · simp
  split
  · simp
  split
  · simp only [readString, Quoted.take]; split <;> simp
  split
  · rename_i h
    have : (Numeral.take (c :: cs)).1.text ≠ [] := by
      apply Numeral.text_ne_nil
      simp only [startsNumber, Bool.or_eq_true, Bool.and_eq_true, beq_iff_eq] at h
      rcases h with h | ⟨rfl, -⟩
      · right
        have hm : c ≠ '-' := by rintro rfl; revert h; decide
        simp [Numeral.take, Numeral.takeSign, hm, h]
      · left; rfl
    simp [readNumber, this]
  split
  · rename_i h
    simp [readName, Name.isPart_of_isHead h]
  · simp

theorem rest_lt (c : Char) (cs : List Char) : (read c cs).rest.length < (c :: cs).length := by
  have h := congrArg List.length (read_text c cs)
  have := List.length_pos_iff.2 (read_text_ne_nil c cs)
  rw [List.length_append] at h
  omega

/-- The tokens of a text that begins at `p`, after those already `done`. -/
def tokensFrom (done : List Token) (p : Position) : List Char → List Token
  | [] => (⟨.finish, "", p⟩ :: done).reverse
  | c :: cs =>
    if Text.isBlank c then tokensFrom done (p.next c) cs
    else
      let r := read c cs
      tokensFrom (⟨r.kind, String.ofList r.text, p⟩ :: done) (p.after r.text) r.rest
termination_by cs => cs.length
decreasing_by
  · simp
  · exact rest_lt c cs

/-- The tokens of a text; the last one marks its end. -/
def tokens (source : String) : List Token := tokensFrom [] Position.start source.toList

end TypedCommands.Token
