import TypedCommands.Position
import TypedCommands.Text.Lines

/-! Reports about a text: what is wrong at which place, in one line or with the line of the text
and a caret under the place. -/
namespace TypedCommands

/-- How much of the text a report shows. -/
inductive Mode where
  | simple | verbose
  deriving DecidableEq

namespace Mode

def name : Mode → String
  | .simple => "simple"
  | .verbose => "verbose"

def ofName? : String → Option Mode
  | "simple" => some .simple
  | "verbose" => some .verbose
  | _ => none

@[simp] theorem ofName?_name (m : Mode) : ofName? m.name = some m := by cases m <;> rfl

end Mode

inductive Diagnostic.Kind where
  | lexical | syntactic
  deriving DecidableEq

structure Diagnostic where
  kind : Diagnostic.Kind
  message : String
  position : Position
  /-- The line of the text that the report is about, ready to be shown. -/
  line : Option String
  deriving DecidableEq

namespace Diagnostic

def summary (d : Diagnostic) : String := s!"{d.position.label}: {d.message}"

def render (d : Diagnostic) : Mode → String
  | .simple => d.summary
  | .verbose =>
    match d.line with
    | none => d.summary
    | some line => d.summary ++ "\n" ++ Text.caret line d.position.column

/-- Attaches the line that a report is about. -/
def withLine (lines : List String) (d : Diagnostic) : Diagnostic :=
  { d with line := some (Text.line lines d.position.line) }

def renderAll (mode : Mode) (ds : List Diagnostic) : String :=
  "\n".intercalate (ds.map (·.render mode))

end Diagnostic
end TypedCommands
