import TypedCommands.Command
import TypedCommands.Command.Complaint

/-! Reading a command by descent into its groups. A cursor moves over a vector of tokens, and every
function goes on from where it stands. Nothing in the definitions says that this comes to an end: a
clock bounds how many calls are made one within the other. -/
namespace TypedCommands.Descent

/-- Why nothing comes of a reading. -/
inductive Stuck where
  /-- It looks for a token where there is none. -/
  | token
  /-- It has not ended when the clock has run out. -/
  | clock
  deriving DecidableEq

/-- How a token is looked at from a cursor, and where the cursor stands when it is taken. -/
structure Tape where
  peek : Nat → Option Token
  advance : Nat → Option Nat

/-- The tokens of a vector. Behind them its last one is seen, and the cursor stays. -/
def clamped (ts : List Token) : Tape where
  peek i := ts[min i (ts.length - 1)]?
  advance i := ts[min i (ts.length - 1)]?.map fun _ => if i < ts.length then i + 1 else i

structure Cursor where
  position : Nat
  /-- How many groups are open. -/
  depth : Nat
  /-- The last one first. -/
  complaints : List Complaint
  deriving DecidableEq

def Cursor.complain (c : Cursor) (complaint : Complaint) : Cursor :=
  { c with complaints := complaint :: c.complaints }

/-- What comes of a reading, and where the cursor stands then. -/
abbrev Outcome := Except (List Complaint) Command × Cursor

variable (tape : Tape)

def peek (c : Cursor) : Except Stuck Token :=
  match tape.peek c.position with
  | some t => .ok t
  | none => .error .token

def advance (c : Cursor) : Except Stuck Cursor :=
  match tape.advance c.position with
  | some i => .ok { c with position := i }
  | none => .error .token

/-- Passes over the rest of a group, within so many parentheses opened on the way. A complaint may
have been made about the first token. -/
def skip : (clock opened : Nat) → (reported : Bool) → Cursor → Except Stuck Cursor
  | 0, _, _, _ => .error .clock
  | clock + 1, opened, reported, c => do
    let t ← peek tape c
    match t.kind, opened with
    | .finish, _ => return c
    | .opening, n => skip clock (n + 1) false (← advance tape c)
    | .closing, 0 => advance tape c
    | .closing, n + 1 => skip clock n false (← advance tape c)
    | .invalid _, n =>
      skip clock n false (← advance tape (if reported then c else c.complain (.invalid t)))
    | _, n => skip clock n false (← advance tape c)

/-- Ends a group whose command has been read, if it had one. -/
def close (clock : Nat) (inner : Option Command) (c : Cursor) :
    Except Stuck (Option Command × Cursor) := do
  let t ← peek tape c
  match t.kind with
  | .closing => return (inner, ← advance tape c)
  | _ => return (inner, ← skip tape clock 0 true (c.complain (.expected .closing t)))

mutual

def command : (clock : Nat) → Cursor → Except Stuck (Option Command × Cursor)
  | 0, _ => .error .clock
  | clock + 1, c => do
    let t ← peek tape c
    match t.kind with
    | .identifier name =>
      let (read, c) ← parameters clock [] (← advance tape c)
      return (some (.mk name t.position read), c)
    | .opening => group clock c
    -- These are left for whoever asked for the command.
    | .closing | .finish => return (none, c.complain (.expected .command t))
    | _ => return (none, ← advance tape (c.complain (.expected .command t)))

/-- Goes on up to a token that cannot begin a parameter. A group without a command is dropped. -/
def parameters : (clock : Nat) → List Parameter → Cursor → Except Stuck (List Parameter × Cursor)
  | 0, _, _ => .error .clock
  | clock + 1, read, c => do
    let t ← peek tape c
    match t.kind with
    | .literal value =>
      parameters clock (read ++ [.literal value t.position]) (← advance tape c)
    | .opening =>
      match ← group clock c with
      | (some inner, c) => parameters clock (read ++ [.command inner]) c
      | (none, c) => parameters clock read c
    | _ => return (read, c)

def group : (clock : Nat) → Cursor → Except Stuck (Option Command × Cursor)
  | 0, _ => .error .clock
  | clock + 1, c => do
    let opening ← peek tape c
    let c ← advance tape c
    if c.depth = maxDepth then
      return (none, ← skip tape clock 0 false (c.complain (.tooDeep opening)))
    else
      let (inner, c) ← command clock { c with depth := c.depth + 1 }
      close tape clock inner { c with depth := c.depth - 1 }

end

/-- Passes over the rest of the text. -/
def remaining : (clock : Nat) → Cursor → Except Stuck Cursor
  | 0, _ => .error .clock
  | clock + 1, c => do
    let t ← peek tape c
    if t.isFinish then return c
    else remaining clock (← advance tape (if t.isInvalid then c.complain (.invalid t) else c))

/-- The outcome, when the end has been reached. -/
def verdict (command? : Option Command) (c : Cursor) : Outcome :=
  match command?, c.complaints with
  | some d, [] => (.ok d, c)
  | _, complaints => (.error complaints.reverse, { c with complaints := [] })

/-- What follows a command is complained of and taken, if it is no end. -/
def expectEnd (c : Cursor) : Except Stuck Cursor := do
  let t ← peek tape c
  if t.isFinish then return c else advance tape (c.complain (.expected .endOfInput t))

/-- What is left to do behind the command, or behind what was found instead of one. -/
def conclude (clock : Nat) : Option Command → Cursor → Except Stuck Outcome
  | some d, c => return verdict (some d) (← remaining tape clock (← expectEnd tape c))
  | none, c => return verdict none (← remaining tape clock c)

def parse (clock : Nat) : Except Stuck Outcome := do
  let (command?, c) ← command tape clock ⟨0, 0, []⟩
  conclude tape clock command? c

end TypedCommands.Descent
