import TypedCommands.Diagnostic
import TypedCommands.Token

/-! What the parser objects to, and at which token. -/
namespace TypedCommands

/-- Deepest nesting of parentheses. -/
def maxDepth : Nat := 64

inductive Expected where
  | command | closing | endOfInput
  deriving DecidableEq

def Expected.name : Expected → String
  | .command => "command"
  | .closing => "')'"
  | .endOfInput => "end-of-input"

inductive Complaint where
  | expected (what : Expected) (found : Token)
  | tooDeep (opening : Token)
  /-- An invalid token in a part of the text that is passed over. -/
  | invalid (found : Token)
  deriving DecidableEq

namespace Complaint

def token : Complaint → Token
  | .expected _ t | .tooDeep t | .invalid t => t

def kind : Complaint → Diagnostic.Kind
  | .expected .. | .tooDeep _ => .syntactic
  | .invalid _ => .lexical

def message : Complaint → String
  | .expected what found => s!"expected {what.name} but found {found.describe}"
  | .tooDeep _ => s!"nesting deeper than {maxDepth} levels"
  | .invalid found => found.describe

def diagnostic (c : Complaint) : Diagnostic := ⟨c.kind, c.message, c.token.position, none⟩

end Complaint
end TypedCommands
