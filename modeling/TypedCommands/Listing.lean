import TypedCommands.Registry

/-! What a registry says about its commands. -/
namespace TypedCommands.Registry

variable {σ : Type}

def noCommand (name : String) : String := s!"No command named '{name}'"

/-- The usage of one command. -/
def usage (r : Registry σ) (name : String) : String :=
  ((r.signature? name).map (·.usage)).getD (noCommand name)

def typedUsage (r : Registry σ) (name : String) : String :=
  ((r.signature? name).map (·.typedUsage)).getD (noCommand name)

/-- One line for every command, in ascending order. -/
def listBy (r : Registry σ) (line : Signature → String) : String :=
  "\n".intercalate (sortTexts (r.entries.map fun e => line e.signature))

def list (r : Registry σ) : String := r.listBy (·.usage)
def typedList (r : Registry σ) : String := r.listBy (·.typedUsage)

end TypedCommands.Registry
