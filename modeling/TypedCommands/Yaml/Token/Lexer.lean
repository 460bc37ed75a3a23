import TypedCommands.Number.Digits
import TypedCommands.Yaml.Token
import TypedCommands.Yaml.Token.Character

/-! The tokens of a text, read one character at a time. Tags, anchors, aliases, directives, block
scalars and explicit keys are refused. -/
namespace TypedCommands.Yaml.Lexer

/-- What a backslash has begun. -/
inductive Escape where
  | none
  | started
  | hex (digits value : Nat)
  /-- The second of two quotes that stand for one. -/
  | quote

inductive Mode where
  | between
  | comment
  /-- Within an indicator of several characters, with so many to come. -/
  | indicator (left : Nat)
  | plain (text : List Char) (gap : Option Gap)
  | quoted (double : Bool) (text : List Char) (gap : Option Gap) (escape : Escape)

/-- Something that becomes a key if a colon follows it on its line. -/
structure Candidate where
  /-- How many tokens come before it. -/
  before : Nat
  line : Nat
  column : Nat
  /-- How many bytes come before it. -/
  offset : Nat
  /-- Nothing but a key can stand here. -/
  required : Bool

structure State where
  mode : Mode
  /-- The last one first. -/
  tokens : List Token
  count : Nat
  /-- The columns of the open blocks, the innermost first. -/
  indents : List Nat
  keyAllowed : Bool
  candidate : Option Candidate
  /-- The candidates outside of each open flow collection, the innermost first. -/
  outer : List (Option Candidate)
  line : Nat
  column : Nat
  /-- In bytes, where the line and the column count characters. -/
  offset : Nat

namespace State

def initial : State := ⟨.between, [], 0, [], true, none, [], 0, 0, 0⟩

def inFlow (s : State) : Bool := !s.outer.isEmpty

/-- The least column at which a scalar of the innermost block can go on. -/
def margin (s : State) : Nat :=
  match s.indents with
  | [] => 0
  | i :: _ => i + 1

def forward (s : State) (c : Char) : State :=
  let s := { s with offset := s.offset + c.utf8Size }
  if isBreak c then { s with line := s.line + 1, column := 0 } else { s with column := s.column + 1 }

def emit (s : State) (t : Token) : State := { s with tokens := t :: s.tokens, count := s.count + 1 }

/-- Puts tokens, the last one first, behind the first `before` ones. -/
def insert (s : State) (before : Nat) (ts : List Token) : State :=
  let later := s.count - before
  { s with
    tokens := s.tokens.take later ++ ts ++ s.tokens.drop later
    count := s.count + ts.length }

/-- What stood here was no key. -/
def dropCandidate (s : State) : Option State :=
  match s.candidate with
  | some k => if k.required then none else some { s with candidate := none }
  | none => some s

/-- A key ends on its line and within 1024 bytes. The candidates outside of a flow collection are
looked at once it has ended. -/
def dropStale (s : State) : Option State :=
  if s.candidate.any fun k => k.line < s.line ∨ k.offset + 1024 < s.offset then s.dropCandidate
  else some s

def saveCandidate (s : State) : Option State :=
  if s.keyAllowed then do
    let s ← s.dropCandidate
    let required := !s.inFlow && s.indents.head? == some s.column
    return { s with candidate := some ⟨s.count, s.line, s.column, s.offset, required⟩ }
  else some s

/-- Ends the blocks that are indented further than a column. -/
def endBlocks (column : Nat) : List Nat → State → State
  | [], s => { s with indents := [] }
  | i :: is, s =>
    if column < i then endBlocks column is (s.emit .blockEnd) else { s with indents := i :: is }

def unroll (s : State) (column : Nat) : State := if s.inFlow then s else endBlocks column s.indents s

def unrollAll (s : State) : State :=
  if s.inFlow then s
  else { s.indents.foldl (fun s _ => s.emit .blockEnd) s with indents := [] }

/-- Whether a block that begins at a column would be a new one. -/
def opensBlock (s : State) (column : Nat) : Bool :=
  !s.inFlow && match s.indents with
    | [] => true
    | i :: _ => decide (i < column)

def roll (s : State) (column : Nat) (t : Token) : State :=
  if s.opensBlock column then { s with indents := column :: s.indents }.emit t else s

def openFlow (s : State) (t : Token) : Option State := do
  let s ← s.saveCandidate
  return { s with outer := s.candidate :: s.outer, candidate := none, keyAllowed := true }.emit t

def closeFlow (s : State) (t : Token) : Option State := do
  let s ← s.dropCandidate
  let s := match s.outer with
    | [] => s
    | k :: ks => { s with candidate := k, outer := ks }
  return { s with keyAllowed := false }.emit t

def comma (s : State) : Option State := do
  return { ← s.dropCandidate with keyAllowed := true }.emit .comma

def item (s : State) : Option State :=
  if s.inFlow || s.keyAllowed then do
    let s ← (s.roll s.column .blockSequence).dropCandidate
    return { s with keyAllowed := true }.emit .item
  else none

/-- A colon makes a key of the candidate before it. -/
def value (s : State) : Option State :=
  match s.candidate with
  | some k =>
    let opens := s.opensBlock k.column
    let s := { s with candidate := none, keyAllowed := false }
    let s :=
      if opens then { s with indents := k.column :: s.indents }.insert k.before [.key, .blockMapping]
      else s.insert k.before [.key]
    some (s.emit .value)
  | none =>
    if s.inFlow then some ({ s with keyAllowed := false }.emit .value)
    else if s.keyAllowed then some ((s.roll s.column .blockMapping).emit .value)
    else none

def startScalar (s : State) (mode : Mode) : Option State := do
  return { ← s.saveCandidate with keyAllowed := false, mode }

def marker (s : State) (t : Token) : Option State := do
  let s ← s.unrollAll.dropCandidate
  return { s with keyAllowed := false, mode := .indicator 2 }.emit t

def startsPlain (s : State) (c : Char) (next : List Char) : Bool :=
  if indicators.contains c || isGap c then false
  else if c == '-' then true
  else if c == '?' || c == ':' then !s.inFlow && !gapNext next
  else true

/-- Begins the token at `c`. -/
def begin (s : State) (c : Char) (next : List Char) : Option State := do
  let s ← s.dropStale
  let s := s.unroll s.column
  let s ←
    if s.column == 0 && startsMarker c next then
      s.marker (if c = '-' then .documentStart else .documentEnd)
    else if c = '[' then s.openFlow .flowSequence
    else if c = '{' then s.openFlow .flowMapping
    else if c = ']' then s.closeFlow .flowSequenceEnd
    else if c = '}' then s.closeFlow .flowMappingEnd
    else if c = ',' then s.comma
    else if c = '-' ∧ gapNext next then s.item
    else if c = ':' ∧ (s.inFlow ∨ gapNext next) then s.value
    else if c = '\'' then s.startScalar (.quoted false [] none .none)
    else if c = '"' then s.startScalar (.quoted true [] none .none)
    else if s.startsPlain c next then s.startScalar (.plain [c] none)
    else none
  return s.forward c

/-- A byte order mark may begin a line, and takes a column there. -/
def stepBetween (s : State) (c : Char) (next : List Char) : Option State :=
  if c = byteOrderMark ∧ s.column = 0 then some (s.forward c)
  else if c = ' ' ∨ (c = '\t' ∧ (s.inFlow ∨ !s.keyAllowed)) then some (s.forward c)
  else if c = '#' then some ({ s with mode := .comment }.forward c)
  else if isBreak c then
    some ({ s with keyAllowed := s.keyAllowed || !s.inFlow }.forward c)
  else s.begin c next

def endPlain (s : State) (text : List Char) (gap : Option Gap) : State :=
  { s with
    mode := .between
    keyAllowed := s.keyAllowed || (gap.map Gap.broken).getD false }.emit (.scalar true (String.ofList text.reverse))

/-- Whether a plain scalar ends after the gap before `c`. -/
def endsAtGap (s : State) (c : Char) (next : List Char) : Bool :=
  (!s.inFlow && decide (s.column < s.margin)) || (s.column == 0 && startsMarker c next) || c == '#'

/-- A colon right before an indicator of a flow collection. -/
def strayColon (s : State) (c : Char) (next : List Char) : Bool :=
  s.inFlow && c == ':' && next.head?.any fun d => ('?' :: flowIndicators).contains d

def endsPlain (s : State) (c : Char) (next : List Char) : Bool :=
  (c == ':' && gapNext next) || (s.inFlow && flowIndicators.contains c)

def stepPlain (s : State) (text : List Char) (gap : Option Gap) (c : Char) (next : List Char) :
    Option State :=
  let g := gap.getD Gap.empty
  if isSpace c then
    if g.broken && decide (s.column < s.margin) && c == '\t' then none
    else some ({ s with mode := .plain text (some (g.addSpace c)) }.forward c)
  else if isBreak c then some ({ s with mode := .plain text (some (g.addBreak c)) }.forward c)
  else if gap.isSome && s.endsAtGap c next then (s.endPlain text gap).stepBetween c next
  else if s.strayColon c next then none
  else if s.endsPlain c next then (s.endPlain text gap).stepBetween c next
  else some ({ s with mode := .plain (c :: (g.folded ++ text)) none }.forward c)

/-- What a backslash and this character stand for. -/
def escaped : Char → Option Char
  | '0' => some '\x00'
  | 'a' => some '\x07'
  | 'b' => some '\x08'
  | 't' => some '\t'
  | '\t' => some '\t'
  | 'n' => some '\n'
  | 'v' => some '\x0B'
  | 'f' => some '\x0C'
  | 'r' => some '\r'
  | 'e' => some '\x1B'
  | ' ' => some ' '
  | '"' => some '"'
  | '/' => some '/'
  | '\\' => some '\\'
  | 'N' => some '\u0085'
  | '_' => some '\u00A0'
  | 'L' => some '\u2028'
  | 'P' => some '\u2029'
  | _ => none

/-- How many hexadecimal digits follow. -/
def hexLength : Char → Option Nat
  | 'x' => some 2
  | 'u' => some 4
  | 'U' => some 8
  | _ => none

def charOfCode (n : Nat) : Option Char := if h : n.isValidChar then some (Char.ofNatAux n h) else none

/-- A character within quotes that is neither blank nor behind a backslash. -/
def stepWord (s : State) (double : Bool) (text : List Char) (c : Char) (next : List Char) :
    Option State :=
  let go (text : List Char) (escape : Escape) := some { s with mode := .quoted double text none escape }
  if double && c == '\\' then go text .started
  else if !double && c == '\'' && next.head? == some '\'' then go text .quote
  else if c == (if double then '"' else '\'') then
    some ({ s with mode := .between }.emit (.scalar false (String.ofList text.reverse)))
  else go (c :: text) .none

def stepEscape (s : State) (double : Bool) (text : List Char) (c : Char) : Option State :=
  if isBreak c then some { s with mode := .quoted double text (some Gap.hidden) .none }
  else
    match hexLength c, escaped c with
    | some n, _ => some { s with mode := .quoted double text none (.hex n 0) }
    | none, some d => some { s with mode := .quoted double (d :: text) none .none }
    | none, none => none

def stepHex (s : State) (double : Bool) (text : List Char) (digits value : Nat) (c : Char) :
    Option State := do
  let value := 16 * value + (← Digits.ofHex? c)
  if digits ≤ 1 then
    return { s with mode := .quoted double ((← charOfCode value) :: text) none .none }
  else return { s with mode := .quoted double text none (.hex (digits - 1) value) }

def stepQuoted (s : State) (double : Bool) (text : List Char) (gap : Option Gap) (escape : Escape)
    (c : Char) (next : List Char) : Option State :=
  let g := gap.getD Gap.empty
  match escape with
  | .started => s.stepEscape double text c
  | .hex digits value => s.stepHex double text digits value c
  | .quote => some { s with mode := .quoted double ('\'' :: text) none .none }
  | .none =>
    if isBreak c then some { s with mode := .quoted double text (some (g.addBreak c)) .none }
    else if isSpace c then some { s with mode := .quoted double text (some (g.addSpace c)) .none }
    else if gap.isSome && s.column == 0 && startsMarker c next then none
    else s.stepWord double (g.folded ++ text) c next

def step (s : State) (c : Char) (next : List Char) : Option State :=
  match s.mode with
  | .between => s.stepBetween c next
  | .comment =>
    if isBreak c then { s with mode := .between }.stepBetween c next else some (s.forward c)
  | .indicator n =>
    some ({ s with mode := if n ≤ 1 then .between else .indicator (n - 1) }.forward c)
  | .plain text gap => s.stepPlain text gap c next
  | .quoted double text gap escape => (s.stepQuoted double text gap escape c next).map (·.forward c)

/-- The tokens, if the text may end here. -/
def finish (s : State) : Option (List Token) := do
  let s ← match s.mode with
    | .plain text gap => some (s.endPlain text gap)
    | .quoted .. => none
    | _ => some s
  let s ← s.dropStale
  let s ← s.unrollAll.dropCandidate
  return s.tokens.reverse

end State

def run (s : State) : List Char → Option (List Token)
  | [] => s.finish
  | c :: cs =>
    match s.step c cs with
    | some s => run s cs
    | none => none

end Lexer

/-- The tokens of a document, if it is well formed so far. -/
def Token.ofText? (text : String) : Option (List Token) :=
  if text.toList.all isAllowed then Lexer.run .initial (unifyBreaks text.toList) else none

end TypedCommands.Yaml
