import TypedCommands.Literal
import TypedCommands.Position

/-! The words of a command text. -/
namespace TypedCommands

inductive Token.Kind where
  | identifier (name : String)
  | literal (value : Literal)
  | opening
  | closing
  | finish
  | invalid (reason : String)
  deriving DecidableEq

structure Token where
  kind : Token.Kind
  text : String
  position : Position
  deriving DecidableEq

namespace Token

/-- Whether a parameter can begin here. -/
def startsParameter (t : Token) : Bool :=
  match t.kind with
  | .literal _ | .opening => true
  | _ => false

def isFinish (t : Token) : Bool :=
  match t.kind with
  | .finish => true
  | _ => false

def isInvalid (t : Token) : Bool :=
  match t.kind with
  | .invalid _ => true
  | _ => false

/-- What a report calls the token. -/
def describe (t : Token) : String :=
  match t.kind with
  | .identifier name => s!"identifier '{name}'"
  | .literal (.text _) => s!"string {t.text}"
  | .literal (.integer _) => s!"integer '{t.text}'"
  | .literal (.float _) => s!"float '{t.text}'"
  | .opening => "'('"
  | .closing => "')'"
  | .finish => "end-of-input"
  | .invalid reason => s!"invalid token '{t.text}' ({reason})"

end Token
end TypedCommands
