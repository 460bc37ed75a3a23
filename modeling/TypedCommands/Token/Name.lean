/-! Names of commands: an ASCII letter or underscore, then ASCII letters, digits and underscores. -/
namespace TypedCommands.Name

def isHead (c : Char) : Bool := c.isAlpha || c == '_'
def isPart (c : Char) : Bool := c.isAlphanum || c == '_'

def isNameChars : List Char → Bool
  | [] => false
  | c :: cs => isHead c && cs.all isPart

def isName (s : String) : Bool := isNameChars s.toList

theorem isPart_of_isHead {c : Char} (h : isHead c = true) : isPart c = true := by
  simp only [isHead, isPart, Char.isAlphanum, Bool.or_eq_true] at h ⊢
  exact h.imp_left .inl

theorem isNameChars_cons (c : Char) (cs : List Char) :
    isNameChars (c :: cs) = (isHead c && cs.all isPart) := rfl

end TypedCommands.Name
