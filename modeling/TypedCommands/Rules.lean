import TypedCommands.Environment

/-! Rules: when a condition gives the integer 1, the consequence is run. Both texts of every rule
are checked when a set is loaded. -/
namespace TypedCommands

structure Rule where
  name : String
  condition : String
  consequence : String
  deriving DecidableEq

namespace Rule

inductive Part where
  | condition | consequence
  deriving DecidableEq

def Part.name : Part → String
  | .condition => "condition"
  | .consequence => "consequence"

def text (r : Rule) : Part → String
  | .condition => r.condition
  | .consequence => r.consequence

structure LoadError where
  rule : String
  part : Part
  cause : CommandError
  deriving DecidableEq

def LoadError.render (mode : Mode) (e : LoadError) : String :=
  s!"rule '{e.rule}': invalid {e.part.name}:\n{e.cause.render mode}"

inductive Outcome where
  | skipped
  | fired (value : Value)
  | failed (error : CommandError)
  deriving DecidableEq

structure Firing where
  rule : String
  outcome : Outcome
  deriving DecidableEq

def Outcome.isFailed : Outcome → Bool
  | .failed _ => true
  | _ => false

variable {σ : Type}

def checkPart (env : Environment σ) (r : Rule) (part : Part) : Except LoadError Unit :=
  match env.check (r.text part) with
  | .ok _ => .ok ()
  | .error e => .error ⟨r.name, part, e⟩

def check (env : Environment σ) (r : Rule) : Except LoadError Unit := do
  r.checkPart env .condition
  r.checkPart env .consequence

def fire (env : Environment σ) (r : Rule) (s : σ) : Firing × σ :=
  match env.run r.condition s with
  | (.error e, s) => (⟨r.name, .failed e⟩, s)
  | (.ok v, s) =>
    if v.isTrue then
      match env.run r.consequence s with
      | (.ok v, s) => (⟨r.name, .fired v⟩, s)
      | (.error e, s) => (⟨r.name, .failed e⟩, s)
    else (⟨r.name, .skipped⟩, s)

end Rule

/-- Rules in the order in which they fire. -/
structure RuleSet where
  rules : List Rule

namespace RuleSet

variable {σ : Type}

def empty : RuleSet := ⟨[]⟩
def size (set : RuleSet) : Nat := set.rules.length
def isEmpty (set : RuleSet) : Bool := set.rules.isEmpty

/-- The rules as a set, or the first fault in their texts. -/
def load (env : Environment σ) (rules : List Rule) : Except Rule.LoadError RuleSet := do
  rules.forM (·.check env)
  return ⟨rules⟩

def fireAll (env : Environment σ) : List Rule → σ → List Rule.Firing × σ
  | [], s => ([], s)
  | r :: rs, s =>
    let (f, s) := r.fire env s
    let (fs, s) := fireAll env rs s
    (f :: fs, s)

/-- Fires every rule once, in order, each in the state that the one before it left. -/
def fire (env : Environment σ) (set : RuleSet) : σ → List Rule.Firing × σ := fireAll env set.rules

end RuleSet
end TypedCommands
