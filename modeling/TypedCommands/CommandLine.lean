import TypedCommands.Bridge
import TypedCommands.Invocation
import TypedCommands.Listing
import TypedCommands.Settings.File

/-! What an invocation does, given the files it may read: what it prints and how it exits, or the
bridge that it starts. -/
namespace TypedCommands

namespace CommandLine

structure Result where
  exit : UInt32
  output : String
  error : String
  deriving DecidableEq

def success (output : String) : Result := ⟨0, output, ""⟩
def failure (error : String) : Result := ⟨1, "", error ++ "\n"⟩

/-- What reading the files brings that settings may be in. -/
structure Files where
  read : String → Except SystemError ByteArray
  /-- The file in the home directory. -/
  home : Except SystemError ByteArray

/-- The settings of an invocation, or what it prints because there are none. -/
def settings (files : Files) (i : Invocation) (reason : String → String := fun _ => "") :
    Except String Settings :=
  match i.config with
  | some path => (Settings.ofFile (files.read path) reason).mapError (·.message path)
  | none => .ok ((Settings.ofHome? files.home).getD Settings.default)

/-- The built-in commands, reported on as the settings and the invocation say. -/
def environment (i : Invocation) (s : Settings) : Except RegistrationError (Environment Unit) :=
  Environment.ofDeclarations Builtin.declarations (if i.simple then .simple else s.mode)

def firingLine (mode : Mode) (f : Rule.Firing) : String :=
  match f.outcome with
  | .skipped => s!"{f.rule}: skipped\n"
  | .fired v => s!"{f.rule}: {v.print}\n"
  | .failed e => s!"{f.rule}: failed: {e.render mode}\n"

def someFailed : String := "one or more rules failed"

def fireRules (env : Environment Unit) (rules : List Rule) : Result :=
  match RuleSet.load env rules with
  | .error e => failure (e.render env.mode)
  | .ok set =>
    let firings := (set.fire env ()).1
    let output := String.join (firings.map (firingLine env.mode))
    if firings.any (·.outcome.isFailed) then ⟨1, output, someFailed ++ "\n"⟩ else success output

def usageOf (env : Environment Unit) (name : String) (types : Bool) : Result :=
  if env.registry.contains name then
    success ((if types then env.registry.typedUsage name else env.registry.usage name) ++ "\n")
  else failure (env.registry.usage name)

def listing (env : Environment Unit) (types : Bool) : Result :=
  success ((if types then env.registry.typedList else env.registry.list) ++ "\n")

def checkText (env : Environment Unit) (text : String) : Result :=
  match env.check text with
  | .ok _ => success "ok\n"
  | .error e => failure (env.report e)

def runText (env : Environment Unit) (text : String) : Result :=
  match (env.run text ()).1 with
  | .ok v => success (v.print ++ "\n")
  | .error e => failure (env.report e)

/-- A bridge to be started, and the port it is to listen on. -/
structure Service where
  bridge : Bridge Unit
  port : UInt16

inductive Plan where
  | done (result : Result)
  | serve (service : Service)

def perform (env : Environment Unit) (s : Settings) : Invocation.Action → Plan
  | .check text => .done (checkText env text)
  | .run text => .done (runText env text)
  | .usage (some name) types => .done (usageOf env name types)
  | .usage none types | .list types => .done (listing env types)
  | .rules => .done (fireRules env s.rules)
  | .serve port => .serve ⟨⟨env, s.control.sentinel⟩, port.getD s.control.port⟩

/-- The outcome when the port cannot be listened on. -/
def refused (e : SystemError) : Result := failure e.message

/-- The first line that a service prints. -/
def banner (port : String) : String := s!"listening on 127.0.0.1:{port}"

def plan (files : Files) (i : Invocation) (reason : String → String := fun _ => "") : Plan :=
  match settings files i reason with
  | .error message => .done (failure message)
  | .ok s =>
    match environment i s with
    | .error e => .done (failure e.message)
    | .ok env => perform env s i.action

/-- What the program does with its arguments. -/
def start (files : Files) (args : List String) (reason : String → String := fun _ => "") : Plan :=
  match Invocation.parse args with
  | .error .usage => .done ⟨2, "", ""⟩
  | .error .help => .done ⟨0, "", ""⟩
  | .ok i => plan files i reason

end CommandLine
end TypedCommands
