import TypedCommands.Call
import TypedCommands.Value

/-! Running calls. What a command does is up to its handler, which reads and changes the state of
the host, and decides whether and when a nested command runs. -/
namespace TypedCommands

inductive ExecutionError where
  | failed (message : String)
  | badArgument (position : Nat) (expected : Kind)
  | host (text : String)
  deriving DecidableEq

def ExecutionError.message : ExecutionError → String
  | .failed message => message
  | .badArgument position expected => s!"parameter {position} is not {expected.name}"
  | .host text => text

/-- A computation on the host's state that may fail; a failure keeps the state it left. -/
abbrev Action (σ α : Type) : Type := ExceptT ExecutionError (StateM σ) α

/-- A command given as an argument, and what running it does. -/
structure Nested (σ : Type) where
  call : Call
  run : Action σ Value

inductive Operand (σ : Type) where
  | literal (value : Literal)
  | command (nested : Nested σ)

/-- What a handler is given: the name it was called by, and the arguments, counted from 1. -/
structure Operands (σ : Type) where
  command : String
  values : List (Operand σ)

namespace Operands

variable {σ : Type}

def get? (o : Operands σ) (position : Nat) : Option (Operand σ) :=
  if position = 0 then none else o.values[position - 1]?

def integer (o : Operands σ) (position : Nat) : Except ExecutionError Int64 :=
  match o.get? position with
  | some (.literal (.integer n)) => .ok n
  | _ => .error (.badArgument position .integer)

def float (o : Operands σ) (position : Nat) : Except ExecutionError Binary64 :=
  match o.get? position with
  | some (.literal (.float x)) => .ok x
  | _ => .error (.badArgument position .float)

def text (o : Operands σ) (position : Nat) : Except ExecutionError String :=
  match o.get? position with
  | some (.literal (.text s)) => .ok s
  | _ => .error (.badArgument position .text)

def nested (o : Operands σ) (position : Nat) : Except ExecutionError (Nested σ) :=
  match o.get? position with
  | some (.command c) => .ok c
  | _ => .error (.badArgument position .command)

@[simp] theorem get?_zero (o : Operands σ) : o.get? 0 = none := rfl
@[simp] theorem get?_succ (o : Operands σ) (i : Nat) : o.get? (i + 1) = o.values[i]? := rfl

end Operands

/-- The behaviour behind a command, and the name the command has unless it is given another. -/
structure Handler (σ : Type) where
  name : String
  run : Operands σ → Action σ Value

mutual

/-- Runs a call by the handlers of the commands that it names. -/
def Call.run {σ : Type} (handlers : String → Option (Handler σ)) : Call → Action σ Value
  | .mk name arguments =>
    match handlers name with
    | some handler => handler.run ⟨name, operands handlers arguments⟩
    | none => throw (.failed s!"unknown command '{name}'")

/-- The arguments of a call as its handler sees them. -/
def operands {σ : Type} (handlers : String → Option (Handler σ)) : List Argument → List (Operand σ)
  | [] => []
  | .literal value :: rest => .literal value :: operands handlers rest
  | .command call :: rest => .command ⟨call, Call.run handlers call⟩ :: operands handlers rest

end

end TypedCommands
