import TypedCommands.Execution
import TypedCommands.Signature
import TypedCommands.Text.Blank
import TypedCommands.Token.Name

/-! Declarations: commands as a host describes them, and the check that makes signatures of them.
The positions of the parameters must be 1, 2, 3, … in some order. -/
namespace TypedCommands

structure Declaration.Parameter where
  position : Nat
  name : String
  kinds : List Kind
  deriving DecidableEq

structure Declaration (σ : Type) where
  /-- The name, if it is not to be the handler's. -/
  givenName : Option String
  parameters : List Declaration.Parameter
  handler : Handler σ

inductive RegistrationError where
  | invalidName (name : String)
  | duplicateCommand (name : String)
  | emptyParameterName (command : String) (position : Nat)
  | zeroPosition (command parameter : String)
  | duplicatePosition (command : String) (position : Nat) (first second : String)
  | missingPosition (command : String) (position : Nat)
  | unsupportedKinds (command parameter : String) (declared : List Kind)
  deriving DecidableEq

namespace RegistrationError

def kindsText : List Kind → String
  | [] => "no kind"
  | ks => " | ".intercalate (ks.map Kind.name)

def message : RegistrationError → String
  | .invalidName name => s!"command name '{name}' is not a valid identifier"
  | .duplicateCommand name => s!"command '{name}' is registered more than once"
  | .emptyParameterName command position =>
    s!"{command}: parameter at position {position} has an empty name"
  | .zeroPosition command parameter =>
    s!"{command}: parameter '{parameter}' has position 0; positions start at 1"
  | .duplicatePosition command position first second =>
    s!"{command}: position {position} is declared by both '{first}' and '{second}'"
  | .missingPosition command position =>
    s!"{command}: no parameter declared at position {position}"
  | .unsupportedKinds command parameter declared =>
    s!"{command}: parameter '{parameter}' must accept exactly one kind, declared {kindsText declared}"

end RegistrationError

namespace Declaration

/-- A parameter that is sound on its own. -/
structure Placed where
  position : Nat
  parameter : Signature.Parameter
  deriving DecidableEq

def place (command : String) (p : Parameter) : Except RegistrationError Placed :=
  if Text.allBlank p.name then .error (.emptyParameterName command p.position)
  else if p.position = 0 then .error (.zeroPosition command p.name)
  else
    match p.kinds with
    | [kind] => .ok ⟨p.position, p.name, kind⟩
    | kinds => .error (.unsupportedKinds command p.name kinds)

/-- In order of position; parameters of one position stay in the order of their declaration. -/
def sort (ps : List Placed) : List Placed := ps.mergeSort fun a b => decide (a.position ≤ b.position)

/-- The first two neighbours of one position. -/
def clash? : List Placed → Option (Placed × Placed)
  | a :: b :: ps => if a.position = b.position then some (a, b) else clash? (b :: ps)
  | _ => none

/-- The first position from `next` on that is left out. -/
def gap? (next : Nat) : List Placed → Option Nat
  | [] => none
  | p :: ps => if p.position = next then gap? (next + 1) ps else some next

def order (command : String) (ps : List Placed) :
    Except RegistrationError (List Signature.Parameter) :=
  let sorted := sort ps
  match clash? sorted, gap? 1 sorted with
  | some (a, b), _ =>
    .error (.duplicatePosition command a.position a.parameter.name b.parameter.name)
  | none, some position => .error (.missingPosition command position)
  | none, none => .ok (sorted.map (·.parameter))

variable {σ : Type}

def name (d : Declaration σ) : String := d.givenName.getD d.handler.name

/-- The signature that a declaration describes, or the first fault in it. -/
def signature (d : Declaration σ) : Except RegistrationError Signature := do
  if !Name.isName d.name then throw (.invalidName d.name)
  let placed ← d.parameters.mapM (place d.name)
  return ⟨d.name, ← order d.name placed⟩

end Declaration
end TypedCommands
