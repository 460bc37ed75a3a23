import TypedCommands.Rules
import TypedCommands.Yaml.Node.Builder
import TypedCommands.Yaml.Scalar

/-! Settings, and the documents they are kept in. What a document leaves out has its default;
what it gives under other keys is passed over. -/
namespace TypedCommands

structure Control where
  port : UInt16
  /-- The byte that ends requests and responses. -/
  sentinel : UInt8
  deriving DecidableEq

structure Settings where
  mode : Mode
  control : Control
  rules : List Rule
  deriving DecidableEq

def Control.default : Control := ⟨9100, 0⟩

namespace Settings

def default : Settings := ⟨.verbose, Control.default, []⟩

open Yaml (Node)

/-- The entries of a mapping; a place where nothing was written holds none. -/
def entries? : Node → Option (List (String × Node))
  | .mapping entries => entries.mapM fun
    | (.scalar _ key, value) => some (key, value)
    | _ => none
  | .scalar true "" => some []
  | _ => none

def items? : Node → Option (List Node)
  | .sequence items => some items
  | .scalar true "" => some []
  | _ => none

/-- The value under a key, which must not come twice. -/
def unique? (key : String) (entries : List (String × Node)) : Option (Option Node) :=
  match entries.filter fun e => e.1 == key with
  | [] => some none
  | [e] => some (some e.2)
  | _ => none

/-- Reads the value under a key, if there is one. -/
def read? {α : Type} (key : String) (entries : List (String × Node)) (default : Option α)
    (ofNode? : Node → Option α) : Option α := do
  match ← unique? key entries with
  | some n => ofNode? n
  | none => default

def text? : Node → Option String
  | .scalar _ s => some s
  | _ => none

def natural? (bound : Nat) : Node → Option Nat
  | .scalar true s => (Yaml.naturalOf s.toList).filter (· < bound)
  | _ => none

def mode? (n : Node) : Option Mode := do Mode.ofName? (← text? n)

def control? (n : Node) : Option Control := do
  let entries ← entries? n
  let port ← read? "port" entries (some Control.default.port.toNat) (natural? UInt16.size)
  let sentinel ← read? "sentinel" entries (some Control.default.sentinel.toNat) (natural? UInt8.size)
  return ⟨UInt16.ofNat port, UInt8.ofNat sentinel⟩

def rule? (n : Node) : Option Rule := do
  let entries ← entries? n
  return ⟨← read? "name" entries none text?, ← read? "condition" entries none text?,
    ← read? "consequence" entries none text?⟩

def rules? (n : Node) : Option (List Rule) := do (← items? n).mapM rule?

def ofNode? (n : Node) : Option Settings := do
  let entries ← entries? n
  return ⟨← read? "diagnostics" entries (some default.mode) mode?,
    ← read? "control" entries (some default.control) control?,
    ← read? "rules" entries (some default.rules) rules?⟩

def ofText? (text : String) : Option Settings := do ofNode? (← Node.ofText? text)

def ruleText (r : Rule) : String :=
  "- name: " ++ Yaml.scalarText r.name ++ "\n" ++
  "  condition: " ++ Yaml.scalarText r.condition ++ "\n" ++
  "  consequence: " ++ Yaml.scalarText r.consequence ++ "\n"

def rulesText : List Rule → String
  | [] => "rules: []\n"
  | rs => "rules:\n" ++ String.join (rs.map ruleText)

/-- The document that holds the settings. -/
def print (s : Settings) : String :=
  "diagnostics: " ++ s.mode.name ++ "\n" ++
  "control:\n" ++
  "  port: " ++ toString s.control.port.toNat ++ "\n" ++
  "  sentinel: " ++ toString s.control.sentinel.toNat ++ "\n" ++
  rulesText s.rules

end Settings
end TypedCommands
