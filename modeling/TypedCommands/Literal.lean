import TypedCommands.Number.Printed

/-! The kinds of parameters, and the values that can be written out. -/
namespace TypedCommands

inductive Kind where
  | integer | float | text | command
  deriving DecidableEq

def Kind.name : Kind → String
  | .integer => "Integer"
  | .float => "Float"
  | .text => "Text"
  | .command => "Command"

inductive Literal where
  | integer (value : Int64)
  | float (value : Binary64)
  | text (value : String)
  deriving DecidableEq

namespace Literal

def kind : Literal → Kind
  | .integer _ => .integer
  | .float _ => .float
  | .text _ => .text

def integerText (n : Int64) : String := toString n.toInt

/-- A literal as results print it: a text stands for itself. -/
def print : Literal → String
  | .integer n => integerText n
  | .float x => x.text
  | .text s => s

end Literal
end TypedCommands
