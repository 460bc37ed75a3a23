import TypedCommands.Literal

/-! Signatures: a command's name and its parameters, in order of position. -/
namespace TypedCommands

structure Signature.Parameter where
  name : String
  kind : Kind
  deriving DecidableEq

structure Signature where
  name : String
  parameters : List Signature.Parameter
  deriving DecidableEq

namespace Signature

def arity (s : Signature) : Nat := s.parameters.length

/-- The parameter at a position, counted from 1. -/
def parameter? (s : Signature) (position : Nat) : Option Parameter :=
  if position = 0 then none else s.parameters[position - 1]?

/-- The name and the names of the parameters. -/
def usage (s : Signature) : String :=
  " ".intercalate (s.name :: s.parameters.map (·.name))

def Parameter.typed (p : Parameter) : String := s!"({p.name} :: {p.kind.name})"

/-- The usage with the kind of each parameter. -/
def typedUsage (s : Signature) : String :=
  match s.parameters with
  | [] => s.name
  | ps => " ".intercalate ((s.name ++ ":") :: ps.map (·.typed))

@[simp] theorem parameter?_zero (s : Signature) : s.parameter? 0 = none := rfl
@[simp] theorem parameter?_succ (s : Signature) (i : Nat) :
    s.parameter? (i + 1) = s.parameters[i]? := rfl

end Signature
end TypedCommands
