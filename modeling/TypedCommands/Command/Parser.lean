import TypedCommands.Command
import TypedCommands.Command.Complaint
import TypedCommands.Token.Lexer

/-! Reading a command from its tokens. One pass with a stack: every token is taken once, in order,
and says how the state goes on. What is objected to is recorded, and the rest of the group it
stands in is passed over, so that later faults are found as well. -/
namespace TypedCommands.Parser

/-- A command of which some parameters have been read, the last one first. -/
structure Partial where
  name : String
  position : Position
  parameters : List Parameter

def Partial.add (p : Partial) (q : Parameter) : Partial := { p with parameters := q :: p.parameters }
def Partial.command (p : Partial) : Command := .mk p.name p.position p.parameters.reverse

/-- What an open parenthesis is for: a command where a command is due, or a parameter. -/
inductive Group where
  | plain
  | parameter (owner : Partial)

inductive Phase where
  /-- A command is due. -/
  | head
  | parameters (command : Partial)
  /-- The group's command has been read, if it had one; the parenthesis that ends it is due. -/
  | close (group : Group) (inner : Option Command)
  /-- Passing over the rest of a group, within so many parentheses opened on the way. -/
  | skip (group : Group) (opened : Nat) (inner : Option Command)
  /-- The command has been read; the end of the text is due. -/
  | complete (command : Command)
  /-- Passing over the rest of the text. -/
  | trailing

structure State where
  phase : Phase
  /-- The open groups around the phase's own, the innermost first. -/
  outer : List Group
  /-- The last one first. -/
  complaints : List Complaint

namespace State

def initial : State := ⟨.head, [], []⟩

def complain (s : State) (c : Complaint) : State := { s with complaints := c :: s.complaints }

/-- A group within `outer` has ended. -/
def leave (s : State) (outer : List Group) (group : Group) (inner : Option Command) : State :=
  match group, outer, inner with
  | .parameter owner, _, some c => { s with phase := .parameters (owner.add (.command c)), outer }
  | .parameter owner, _, none => { s with phase := .parameters owner, outer }
  | .plain, g :: gs, _ => { s with phase := .close g inner, outer := gs }
  | .plain, [], some c => { s with phase := .complete c, outer := [] }
  | .plain, [], none => { s with phase := .trailing, outer := [] }

/-- A parenthesis opens a group. -/
def enter (s : State) (group : Group) (t : Token) : State :=
  if s.outer.length < maxDepth then { s with phase := .head, outer := group :: s.outer }
  else { s with phase := .skip group 0 none }.complain (.tooDeep t)

/-- The parenthesis that ends a group within `outer` is due. -/
def closeAt (s : State) (outer : List Group) (group : Group) (inner : Option Command) (t : Token) :
    State :=
  match t.kind with
  | .closing => s.leave outer group inner
  | .opening => { s with phase := .skip group 1 inner, outer }.complain (.expected .closing t)
  | _ => { s with phase := .skip group 0 inner, outer }.complain (.expected .closing t)

def step (s : State) (t : Token) : State :=
  match s.phase with
  | .head =>
    match t.kind, s.outer with
    | .identifier name, _ => { s with phase := .parameters ⟨name, t.position, []⟩ }
    | .opening, _ => s.enter .plain t
    | _, [] => { s with phase := .trailing }.complain (.expected .command t)
    | .closing, g :: gs => (s.complain (.expected .command t)).leave gs g none
    | _, g :: gs => { s with phase := .close g none, outer := gs }.complain (.expected .command t)
  | .parameters p =>
    match t.kind, s.outer with
    | .literal value, _ => { s with phase := .parameters (p.add (.literal value t.position)) }
    | .opening, _ => s.enter (.parameter p) t
    | _, g :: gs => s.closeAt gs g (some p.command) t
    | _, [] => { s with phase := .trailing }.complain (.expected .endOfInput t)
  | .close g inner => s.closeAt s.outer g inner t
  | .skip g opened inner =>
    match t.kind, opened with
    | .opening, n => { s with phase := .skip g (n + 1) inner }
    | .closing, 0 => s.leave s.outer g inner
    | .closing, n + 1 => { s with phase := .skip g n inner }
    | .invalid _, _ => s.complain (.invalid t)
    | _, _ => s
  | .complete _ => { s with phase := .trailing }.complain (.expected .endOfInput t)
  | .trailing => if t.isInvalid then s.complain (.invalid t) else s

/-- What the end of the text, at `t`, adds to the complaints: the command that is due there, and
a closing parenthesis for every open group whose lack was not yet reported. -/
def unfinished (s : State) (t : Token) : List Complaint :=
  let closings (n : Nat) := List.replicate n (Complaint.expected .closing t)
  match s.phase with
  | .head => .expected .command t :: closings s.outer.length
  | .close .. => closings (s.outer.length + 1)
  | .parameters _ | .skip .. => closings s.outer.length
  | .complete _ | .trailing => []

def command? (s : State) : Option Command :=
  match s.phase with
  | .parameters p => some p.command
  | .complete c => some c
  | _ => none

/-- The outcome at the end of the text. -/
def finish (s : State) (t : Token) : Except (List Complaint) Command :=
  match s.command?, s.complaints.reverse ++ s.unfinished t with
  | some c, [] => .ok c
  | _, complaints => .error complaints

end State

/-- Reads up to the first token that marks an end. -/
def run (s : State) : List Token → Except (List Complaint) Command
  | [] => s.finish ⟨.finish, "", Position.start⟩
  | t :: ts => if t.isFinish then s.finish t else run (s.step t) ts

end TypedCommands.Parser

namespace TypedCommands.Command

def ofTokens (ts : List Token) : Except (List Complaint) Command := Parser.run .initial ts

/-- The command that a text holds, or what is wrong with the text. -/
def parse (source : String) : Except (List Diagnostic) Command :=
  match ofTokens (Token.tokens source) with
  | .ok c => .ok c
  | .error complaints =>
    let lines := Text.shownLines source
    .error (complaints.map fun c => c.diagnostic.withLine lines)

end TypedCommands.Command
