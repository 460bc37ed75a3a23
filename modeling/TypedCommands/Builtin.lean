import TypedCommands.Registry

/-! The built-in commands: exact integer arithmetic, text, and logic over nested commands. -/
namespace TypedCommands

inductive Builtin where
  | add | sub | mul | div | scale | concat | length | echo | equal | not | and | or
  deriving DecidableEq

namespace Builtin

def all : List Builtin :=
  [.add, .sub, .mul, .div, .scale, .concat, .length, .echo, .equal, .not, .and, .or]

def name : Builtin → String
  | .add => "Add"
  | .sub => "Sub"
  | .mul => "Mul"
  | .div => "Div"
  | .scale => "Scale"
  | .concat => "Concat"
  | .length => "Length"
  | .echo => "Echo"
  | .equal => "Equal"
  | .not => "Not"
  | .and => "And"
  | .or => "Or"

def parameters : Builtin → List Signature.Parameter
  | .add | .sub | .mul | .div | .equal => [⟨"Op1", .integer⟩, ⟨"Op2", .integer⟩]
  | .scale => [⟨"Value", .float⟩, ⟨"Factor", .float⟩]
  | .concat => [⟨"Left", .text⟩, ⟨"Right", .text⟩]
  | .length => [⟨"Text", .text⟩]
  | .echo => [⟨"Message", .text⟩]
  | .not => [⟨"Cond", .command⟩]
  | .and | .or => [⟨"Left", .command⟩, ⟨"Right", .command⟩]

def overflow : ExecutionError := .failed "integer overflow"
def divisionByZero : ExecutionError := .failed "division by zero"

/-- An exact result, if it is in range. -/
def integerResult (n : Int) : Except ExecutionError Value :=
  if Int64.minValue.toInt ≤ n ∧ n ≤ Int64.maxValue.toInt then .ok (.integer (Int64.ofInt n))
  else .error overflow

variable {σ : Type}

/-- Runs a nested command; the names in front of a failure are the path to the command that
failed. -/
def runNested (c : Nested σ) : Action σ Value := fun s =>
  match c.run s with
  | (.ok v, s) => (.ok v, s)
  | (.error e, s) => (.error (.failed s!"{c.call.name}: {e.message}"), s)

def arithmetic (f : Int → Int → Int) (o : Operands σ) : Except ExecutionError Value := do
  let a ← o.integer 1
  let b ← o.integer 2
  integerResult (f a.toInt b.toInt)

/-- The quotient is rounded towards zero. -/
def divide (o : Operands σ) : Except ExecutionError Value := do
  let a ← o.integer 1
  let b ← o.integer 2
  if b = 0 then throw divisionByZero
  integerResult (a.toInt.tdiv b.toInt)

def isTrueNested (c : Nested σ) : Action σ Bool := do return (← runNested c).isTrue

def run (b : Builtin) (o : Operands σ) : Action σ Value := do
  match b with
  | .add => arithmetic (· + ·) o
  | .sub => arithmetic (· - ·) o
  | .mul => arithmetic (· * ·) o
  | .div => divide o
  | .scale => return .float ((← o.float 1) * (← o.float 2))
  | .concat => return .text ((← o.text 1) ++ (← o.text 2))
  | .length => integerResult (← o.text 1).length
  | .echo => return .text (← o.text 1)
  | .equal => return .ofBool ((← o.integer 1) = (← o.integer 2))
  | .not => return .ofBool (!(← isTrueNested (← o.nested 1)))
  | .and =>
    if ← isTrueNested (← o.nested 1) then return .ofBool (← isTrueNested (← o.nested 2))
    else return .ofBool false
  | .or =>
    if ← isTrueNested (← o.nested 1) then return .ofBool true
    else return .ofBool (← isTrueNested (← o.nested 2))

def handler (b : Builtin) : Handler σ := ⟨b.name, b.run⟩

def signature (b : Builtin) : Signature := ⟨b.name, b.parameters⟩

def declaration (b : Builtin) : Declaration σ where
  givenName := none
  parameters := b.parameters.zipIdx.map fun p => ⟨p.2 + 1, p.1.name, [p.1.kind]⟩
  handler := b.handler

def declarations : List (Declaration σ) := all.map declaration

end Builtin
end TypedCommands
