import TypedCommands.Call
import TypedCommands.Command
import TypedCommands.Signature
import TypedCommands.Diagnostic

/-! Binding: checking a command against the signatures it uses. A command is checked before its
parameters and these from left to right; the first fault ends the check. -/
namespace TypedCommands

inductive BindFault where
  | unknownCommand (name : String)
  | missingArgument (command : String) (position : Nat) (parameter : String) (expected : Kind)
  | extraArgument (command : String) (position : Nat) (arity : Nat)
  | typeMismatch (command : String) (position : Nat) (parameter : String) (expected found : Kind)
  deriving DecidableEq

structure BindError where
  place : Position
  fault : BindFault
  deriving DecidableEq

namespace BindFault

def message : BindFault → String
  | .unknownCommand name => s!"unknown command '{name}'"
  | .missingArgument command position parameter expected =>
    s!"{command}: missing parameter {position} ({parameter} :: {expected.name})"
  | .extraArgument command position arity =>
    s!"{command}: unexpected parameter {position} (takes {arity})"
  | .typeMismatch command position parameter expected found =>
    s!"{command}: parameter {position} ({parameter}) expects {expected.name} but found {found.name}"

/-- The position of the parameter at fault. -/
def position? : BindFault → Option Nat
  | .unknownCommand _ => none
  | .missingArgument _ position .. | .extraArgument _ position _ | .typeMismatch _ position .. =>
    some position

end BindFault

namespace BindError

def message (e : BindError) : String := s!"{e.place.label}: {e.fault.message}"

/-- The report, given the line of the text in which the fault lies. -/
def render (e : BindError) (line : String) : Mode → String
  | .simple => e.message
  | .verbose => e.message ++ "\n" ++ Text.caret line e.place.column

end BindError

mutual

/-- The call that a command stands for, or the first fault in it. -/
def Command.bind (signatures : String → Option Signature) : Command → Except BindError Call
  | .mk name place parameters =>
    match signatures name with
    | none => .error ⟨place, .unknownCommand name⟩
    | some s =>
      match s.parameters[parameters.length]?, parameters[s.arity]? with
      | some p, _ =>
        .error ⟨place, .missingArgument name (parameters.length + 1) p.name p.kind⟩
      | none, some extra => .error ⟨extra.position, .extraArgument name (s.arity + 1) s.arity⟩
      | none, none => do return .mk name (← bindParameters signatures name 1 s.parameters parameters)

/-- Binds the parameters of a command from the one at `position` on. -/
def bindParameters (signatures : String → Option Signature) (command : String) (position : Nat) :
    List Signature.Parameter → List Parameter → Except BindError (List Argument)
  | p :: ps, .literal value place :: rest =>
    if value.kind = p.kind then do
      return .literal value :: (← bindParameters signatures command (position + 1) ps rest)
    else .error ⟨place, .typeMismatch command position p.name p.kind value.kind⟩
  | p :: ps, .command inner :: rest =>
    if Kind.command = p.kind then do
      let call ← inner.bind signatures
      return .command call :: (← bindParameters signatures command (position + 1) ps rest)
    else .error ⟨inner.position, .typeMismatch command position p.name p.kind .command⟩
  | _, _ => .ok []

end

end TypedCommands
