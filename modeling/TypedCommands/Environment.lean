import TypedCommands.Binding
import TypedCommands.Builtin
import TypedCommands.Command.Parser

/-! Environments: registered commands, and how faults in a text are reported. -/
namespace TypedCommands

inductive CommandError where
  | parse (diagnostics : List Diagnostic)
  /-- The line is the one of the text in which the fault lies. -/
  | bind (error : BindError) (line : String)
  | execution (command : String) (error : ExecutionError)
  deriving DecidableEq

def CommandError.render (mode : Mode) : CommandError → String
  | .parse diagnostics => Diagnostic.renderAll mode diagnostics
  | .bind error line => error.render line mode
  | .execution command error => s!"{command}: {error.message}"

structure Environment (σ : Type) where
  registry : Registry σ
  mode : Mode

namespace Environment

variable {σ : Type}

def ofDeclarations (ds : List (Declaration σ)) (mode : Mode) :
    Except RegistrationError (Environment σ) := do
  return ⟨← Registry.build ds, mode⟩

def bind (env : Environment σ) (c : Command) : Except BindError Call :=
  c.bind env.registry.signature?

def execute (env : Environment σ) (c : Call) : Action σ Value := c.run env.registry.handler?

/-- The call that a text stands for. Nothing is run. -/
def check (env : Environment σ) (source : String) : Except CommandError Call :=
  match Command.parse source with
  | .error ds => .error (.parse ds)
  | .ok c =>
    match env.bind c with
    | .error e => .error (.bind e (Text.line (Text.shownLines source) e.place.line))
    | .ok call => .ok call

/-- Runs a text that passes the check. -/
def run (env : Environment σ) (source : String) (s : σ) : Except CommandError Value × σ :=
  match env.check source with
  | .error e => (.error e, s)
  | .ok call =>
    match env.execute call s with
    | (.ok v, s) => (.ok v, s)
    | (.error e, s) => (.error (.execution call.name e), s)

def report (env : Environment σ) (e : CommandError) : String := e.render env.mode

/-- The answer to a request: the result, or the report of what went wrong. -/
def respond (env : Environment σ) (source : String) (s : σ) : String × σ :=
  match env.run source s with
  | (.ok v, s) => (v.print, s)
  | (.error e, s) => (env.report e, s)

end Environment
end TypedCommands
