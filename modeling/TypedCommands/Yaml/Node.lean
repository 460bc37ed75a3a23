/-! Documents: scalars, sequences and mappings. -/
namespace TypedCommands.Yaml

inductive Node where
  /-- A scalar is plain unless it was written in quotes. -/
  | scalar (plain : Bool) (text : String)
  | sequence (items : List Node)
  /-- Entries in the order of the text; a key may come more than once. -/
  | mapping (entries : List (Node × Node))

/-- What stands where nothing was written. -/
def Node.empty : Node := .scalar true ""

end TypedCommands.Yaml
