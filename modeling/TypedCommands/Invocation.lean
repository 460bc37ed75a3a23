import TypedCommands.Number.Digits

/-! What the program is asked to do: an action, and options that may stand on either side of its
name. Arguments are taken from left to right, and the first fault ends the reading. -/
namespace TypedCommands

inductive Invocation.Action where
  | check (text : String)
  | run (text : String)
  | usage (name : Option String) (types : Bool)
  | list (types : Bool)
  | rules
  | serve (port : Option UInt16)
  deriving DecidableEq

structure Invocation where
  simple : Bool
  /-- The settings file to be read instead of the one in the home directory. -/
  config : Option String
  action : Invocation.Action
  deriving DecidableEq

namespace Invocation

/-- Why there is nothing to do: the arguments are wrong, or ask for help or the version only. -/
inductive Refusal where
  | usage
  | help
  deriving DecidableEq

inductive Verb where
  | check | run | usage | list | rules | serve
  deriving DecidableEq

def Verb.ofName? : String → Option Verb
  | "check" => some .check
  | "run" => some .run
  | "usage" => some .usage
  | "list" => some .list
  | "rules" => some .rules
  | "serve" => some .serve
  | _ => none

/-- How many texts an action takes at most. -/
def Verb.capacity : Verb → Nat
  | .check | .run | .usage => 1
  | .list | .rules | .serve => 0

inductive Flag where
  | simple | types | help | version
  deriving DecidableEq

inductive Key where
  | config | port
  deriving DecidableEq

/-- Before an action's name there is no verb yet. -/
def flag? (verb : Option Verb) : String → Option Flag
  | "simple" => some .simple
  | "help" => some .help
  | "version" => if verb.isNone then some .version else none
  | "types" => if verb = some .usage ∨ verb = some .list then some .types else none
  | _ => none

def key? (verb : Option Verb) : String → Option Key
  | "config" => some .config
  | "port" => if verb = some .serve then some .port else none
  | _ => none

/-- An argument by its shape. -/
inductive Shape where
  | text (s : String)
  /-- Two hyphens alone: only texts follow. -/
  | divider
  | long (name : String) (value : Option String)
  | short (letters : List Char)
  deriving DecidableEq

def splitAtEquals (cs : List Char) : String × Option String :=
  let name := cs.takeWhile (· != '=')
  match cs.dropWhile (· != '=') with
  | [] => (String.ofList name, none)
  | _ :: value => (String.ofList name, some (String.ofList value))

def Shape.of (s : String) : Shape :=
  match s.toList with
  | ['-', '-'] => .divider
  | '-' :: '-' :: cs => .long (splitAtEquals cs).1 (splitAtEquals cs).2
  | ['-'] => .text s
  | '-' :: cs => .short cs
  | _ => .text s

/-- A port: digits, perhaps after a sign, of a number that two bytes can hold. -/
def port? (s : String) : Option UInt16 :=
  let (negative, ds) := match s.toList with
    | '-' :: ds => (true, ds)
    | '+' :: ds => (false, ds)
    | ds => (false, ds)
  if ds = [] ∨ !ds.all Char.isDigit then none
  else
    let n := Digits.value ds
    if n < UInt16.size ∧ (negative → n = 0) then some (UInt16.ofNat n) else none

/-- Options and texts met on one side of an action's name. -/
structure Given where
  simple : Bool
  types : Bool
  config : Option String
  port : Option UInt16
  texts : List String

def Given.nothing : Given := ⟨false, false, none, none, []⟩

abbrev Step (α : Type) := Except Refusal α

/-- A flag is given at most once on each side. -/
def Given.setFlag (g : Given) : Flag → Step Given
  | .simple => if g.simple then .error .usage else .ok { g with simple := true }
  | .types => if g.types then .error .usage else .ok { g with types := true }
  | .help | .version => .error .help

def Given.setKey (g : Given) (key : Key) (value : String) : Step Given :=
  match key with
  | .config =>
    if g.config.isSome || value.isEmpty then .error .usage else .ok { g with config := some value }
  | .port =>
    match g.port, port? value with
    | none, some p => .ok { g with port := some p }
    | _, _ => .error .usage

def Given.addText (g : Given) (capacity : Nat) (text : String) : Step Given :=
  if g.texts.length < capacity then .ok { g with texts := g.texts ++ [text] } else .error .usage

def shortRefusal (verb : Option Verb) : List Char → Refusal
  | 'h' :: _ => .help
  | 'V' :: _ => if verb.isNone then .help else .usage
  | _ => .usage

/-- Reads arguments up to the end or, before an action's name, up to that name. -/
def readSide (verb : Option Verb) (capacity : Nat) (g : Given) :
    List String → Step (Given × List String)
  | [] => .ok (g, [])
  | arg :: rest =>
    match Shape.of arg with
    | .text text =>
      if verb.isNone then .ok (g, arg :: rest)
      else (g.addText capacity text).bind fun g => readSide verb capacity g rest
    | .divider => (rest.foldlM (fun (g : Given) text => g.addText capacity text) g).map fun g => (g, [])
    | .short letters => .error (shortRefusal verb letters)
    | .long name (some value) =>
      match key? verb name with
      | some key => (g.setKey key value).bind fun g => readSide verb capacity g rest
      | none => .error .usage
    | .long name none =>
      match flag? verb name, key? verb name with
      | some flag, _ => (g.setFlag flag).bind fun g => readSide verb capacity g rest
      | none, none => .error .usage
      | none, some key =>
        match rest with
        | [] => .error .usage
        | value :: rest =>
          match Shape.of value with
          | .text value => (g.setKey key value).bind fun g => readSide verb capacity g rest
          | _ => .error .usage

def actionOf (verb : Verb) (g : Given) : Step Action :=
  match verb, g.texts with
  | .check, [text] => .ok (.check text)
  | .run, [text] => .ok (.run text)
  | .usage, texts => .ok (.usage texts.head? g.types)
  | .list, _ => .ok (.list g.types)
  | .rules, _ => .ok .rules
  | .serve, _ => .ok (.serve g.port)
  | _, _ => .error .usage

/-- Help may name the action it is about. -/
def readHelp : List String → Refusal
  | [] => .help
  | [name] => if (Verb.ofName? name).isSome || name == "help" then .help else .usage
  | _ => .usage

/-- An option given behind the action's name wins over the same one before it. -/
def parse (args : List String) : Step Invocation := do
  let (before, rest) ← readSide none 0 .nothing args
  match rest with
  | [] => .error .usage
  | name :: rest =>
    match Verb.ofName? name with
    | none => .error (if name == "help" then readHelp rest else .usage)
    | some verb => do
      let (behind, _) ← readSide (some verb) verb.capacity .nothing rest
      return ⟨before.simple || behind.simple, behind.config.or before.config, ← actionOf verb behind⟩

end Invocation
end TypedCommands
