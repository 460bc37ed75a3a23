import TypedCommands.Literal

/-! Results of commands: literals, and objects that only the host knows how to use. -/
namespace TypedCommands

/-- A host's object. Its number tells it from every other one; its text is all that is shown. -/
structure HostObject where
  number : Nat
  text : String
  deriving DecidableEq

inductive Value where
  | literal (value : Literal)
  | host (object : HostObject)
  deriving DecidableEq

namespace Value

def integer (n : Int64) : Value := .literal (.integer n)
def float (x : Binary64) : Value := .literal (.float x)
def text (s : String) : Value := .literal (.text s)

/-- Truth values are the integers 1 and 0. -/
def ofBool (b : Bool) : Value := integer (if b then 1 else 0)

/-- Only the integer 1 is true. -/
def isTrue (v : Value) : Bool := decide (v = integer 1)

def print : Value → String
  | .literal v => v.print
  | .host object => object.text

/-- Whether two results are equal: numbers by value, texts by their characters, and a host's
objects only if they are the same one. -/
def same : Value → Value → Bool
  | .literal (.float x), .literal (.float y) => x.sameNumber y
  | .literal a, .literal b => decide (a = b)
  | .host a, .host b => a.number == b.number
  | _, _ => false

@[simp] theorem isTrue_ofBool (b : Bool) : (ofBool b).isTrue = b := by cases b <;> decide

end Value
end TypedCommands
