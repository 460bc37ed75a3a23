import TypedCommands.Literal

/-! Calls: commands whose name is registered and whose arguments are of the declared kinds. -/
namespace TypedCommands

mutual

inductive Call where
  | mk (name : String) (arguments : List Argument)

inductive Argument where
  | literal (value : Literal)
  | command (call : Call)

end

namespace Call

def name : Call → String
  | .mk name _ => name

def arguments : Call → List Argument
  | .mk _ arguments => arguments

end Call

def Argument.kind : Argument → Kind
  | .literal value => value.kind
  | .command _ => .command

end TypedCommands
