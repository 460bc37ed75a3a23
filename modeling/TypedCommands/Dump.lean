import TypedCommands.Call
import TypedCommands.Declaration

/-! Dumps: declarations, signatures and calls written out with the names of their fields. Texts
stand in quotes as they are. -/
namespace TypedCommands.Dump

def quoted (s : String) : String := "\"" ++ s ++ "\""

def sequence (xs : List String) : String := "[" ++ ", ".intercalate xs ++ "]"

/-- A record; one with more fields than are shown ends in two dots. -/
def record (name : String) (fields : List (String × String)) (more : Bool) : String :=
  let shown := fields.map fun f => f.1 ++ ": " ++ f.2
  name ++ " \x7b " ++ ", ".intercalate (shown ++ if more then [".."] else []) ++ " \x7d"

def variant (name : String) (content : String) : String := name ++ "(" ++ content ++ ")"

def declared (p : Declaration.Parameter) : String :=
  record "ParamDescriptor" [("position", toString p.position), ("name", quoted p.name),
    ("kinds", sequence (p.kinds.map Kind.name))] false

def declaration {σ : Type} (d : Declaration σ) : String :=
  record "CommandDescriptor"
    [("name", quoted d.name), ("params", sequence (d.parameters.map declared))] true

def parameter (position : Nat) (p : Signature.Parameter) : String :=
  record "ParamSchema" [("position", toString position), ("name", quoted p.name),
    ("kind", p.kind.name)] false

def signature (s : Signature) : String :=
  record "CommandSchema" [("name", quoted s.name),
    ("params", sequence (s.parameters.zipIdx.map fun p => parameter (p.2 + 1) p.1))] true

def literal (v : Literal) : String :=
  variant v.kind.name <| match v with
    | .text s => quoted s
    | v => v.print

mutual

def call : Call → String
  | .mk name values =>
    record "BoundCommand" [("name", quoted name), ("args", sequence (arguments values))] false

def arguments : List Argument → List String
  | [] => []
  | .literal v :: rest => literal v :: arguments rest
  | .command c :: rest => variant Kind.command.name (call c) :: arguments rest

end

end TypedCommands.Dump
