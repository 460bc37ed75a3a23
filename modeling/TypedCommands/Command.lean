import TypedCommands.Literal
import TypedCommands.Position

/-! Commands as written: a name and parameters, each a literal or a command in parentheses. -/
namespace TypedCommands

mutual

inductive Command where
  | mk (name : String) (position : Position) (parameters : List Parameter)

inductive Parameter where
  | literal (value : Literal) (position : Position)
  | command (value : Command)

end

namespace Command

def name : Command → String
  | .mk name _ _ => name

def position : Command → Position
  | .mk _ position _ => position

def parameters : Command → List Parameter
  | .mk _ _ parameters => parameters

end Command

namespace Parameter

def kind : Parameter → Kind
  | .literal value _ => value.kind
  | .command _ => .command

/-- A nested command stands where its name stands. -/
def position : Parameter → Position
  | .literal _ position => position
  | .command value => value.position

end Parameter
end TypedCommands
