import TypedCommands.Yaml.Node
import TypedCommands.Yaml.Token.Lexer

/-! Documents from their tokens. Every token is taken once, by a stack of the collections that it
stands in. -/
namespace TypedCommands.Yaml.Builder

/-- A place where a node is due. Items and entries come with the last one first. -/
inductive Hole where
  | document
  | blockItem (items : List Node)
  /-- In a sequence that is not indented further than the mapping it is a value in. -/
  | levelItem (items : List Node)
  | blockKey (entries : List (Node × Node))
  | blockValue (entries : List (Node × Node)) (key : Node)
  | flowItem (items : List Node)
  | pairKey (items : List Node)
  | pairValue (items : List Node) (key : Node)
  | flowKey (entries : List (Node × Node))
  | flowValue (entries : List (Node × Node)) (key : Node)
  /-- A key of a flow mapping that has no value. -/
  | loneKey (entries : List (Node × Node))

/-- Blocks do not stand within flow collections. -/
def Hole.inBlock : Hole → Bool
  | .document | .blockItem _ | .levelItem _ | .blockKey _ | .blockValue .. => true
  | _ => false

/-- What may come next. -/
inductive Due where
  | node (hole : Hole)
  /-- The end of the document. -/
  | finish (content : Node)
  | blockItem (items : List Node)
  | levelItem (items : List Node)
  | blockKey (entries : List (Node × Node))
  | blockColon (entries : List (Node × Node)) (key : Node)
  | flowItem (items : List Node)
  | pairColon (items : List Node) (key : Node)
  | flowKey (entries : List (Node × Node))
  | flowColon (entries : List (Node × Node)) (key : Node)
  | ended (content : Node)

structure State where
  due : Due
  outer : List Hole

namespace State

def initial : State := ⟨.node .document, []⟩

/-- Puts a node into a hole. -/
def fill (hole : Hole) (outer : List Hole) (n : Node) : State :=
  match hole with
  | .document => ⟨.finish n, outer⟩
  | .blockItem items => ⟨.blockItem (n :: items), outer⟩
  | .levelItem items => ⟨.levelItem (n :: items), outer⟩
  | .blockKey entries => ⟨.blockColon entries n, outer⟩
  | .blockValue entries key => ⟨.blockKey ((key, n) :: entries), outer⟩
  | .flowItem items => ⟨.flowItem (n :: items), outer⟩
  | .pairKey items => ⟨.pairColon items n, outer⟩
  | .pairValue items key => ⟨.flowItem (.mapping [(key, n)] :: items), outer⟩
  | .flowKey entries => ⟨.flowColon entries n, outer⟩
  | .flowValue entries key => ⟨.flowKey ((key, n) :: entries), outer⟩
  | .loneKey entries => ⟨.flowKey ((n, .empty) :: entries), outer⟩

/-- Ends the innermost collection. -/
def close (outer : List Hole) (n : Node) : Option State :=
  match outer with
  | [] => none
  | hole :: outer => some (fill hole outer n)

/-- Where something else than a node is due. -/
def stepDue (s : State) (t : Token) : Option State :=
  match s.due, t with
  | .finish n, .documentEnd | .ended n, .documentEnd => some ⟨.ended n, s.outer⟩
  | .blockItem items, .item => some ⟨.node (.blockItem items), s.outer⟩
  | .blockItem items, .blockEnd => close s.outer (.sequence items.reverse)
  | .levelItem items, .item => some ⟨.node (.levelItem items), s.outer⟩
  | .blockKey entries, .key => some ⟨.node (.blockKey entries), s.outer⟩
  | .blockKey entries, .blockEnd => close s.outer (.mapping entries.reverse)
  | .blockColon entries key, .value => some ⟨.node (.blockValue entries key), s.outer⟩
  | .flowItem items, .comma => some ⟨.node (.flowItem items), s.outer⟩
  | .flowItem items, .flowSequenceEnd => close s.outer (.sequence items.reverse)
  | .pairColon items key, .value => some ⟨.node (.pairValue items key), s.outer⟩
  | .flowKey entries, .comma => some ⟨.node (.loneKey entries), s.outer⟩
  | .flowKey entries, .flowMappingEnd => close s.outer (.mapping entries.reverse)
  | .flowColon entries key, .value => some ⟨.node (.flowValue entries key), s.outer⟩
  | _, _ => none

/-- A sequence on the level of its key ends where the mapping goes on. -/
def endLevel (s : State) : Option State :=
  match s.due with
  | .levelItem items => close s.outer (.sequence items.reverse)
  | _ => some s

/-- Where a node is due and another token comes: nothing was written there, or a collection ends. -/
def stepEmpty (hole : Hole) (outer : List Hole) (t : Token) : Option State :=
  match hole, t with
  | .blockItem items, .item | .blockItem items, .blockEnd =>
    (fill (.blockItem items) outer .empty).stepDue t
  | .levelItem items, .item => (fill (.levelItem items) outer .empty).stepDue t
  | .levelItem items, .key | .levelItem items, .blockEnd => do
    (← (fill (.levelItem items) outer .empty).endLevel).stepDue t
  | .blockValue entries key, .key | .blockValue entries key, .blockEnd =>
    (fill (.blockValue entries key) outer .empty).stepDue t
  | .blockValue entries key, .item => some ⟨.node (.levelItem []), .blockValue entries key :: outer⟩
  | .flowItem items, .key => some ⟨.node (.pairKey items), outer⟩
  | .flowItem items, .flowSequenceEnd => close outer (.sequence items.reverse)
  | .pairValue items key, .comma | .pairValue items key, .flowSequenceEnd =>
    (fill (.pairValue items key) outer .empty).stepDue t
  | .loneKey entries, .key => some ⟨.node (.flowKey entries), outer⟩
  | .loneKey entries, .flowMappingEnd => close outer (.mapping entries.reverse)
  | .flowValue entries key, .comma | .flowValue entries key, .flowMappingEnd =>
    (fill (.flowValue entries key) outer .empty).stepDue t
  | _, _ => none

def step (s : State) (t : Token) : Option State :=
  match s.due with
  | .node hole =>
    match t with
    | .scalar plain text => some (fill hole s.outer (.scalar plain text))
    | .flowSequence => some ⟨.node (.flowItem []), hole :: s.outer⟩
    | .flowMapping => some ⟨.node (.loneKey []), hole :: s.outer⟩
    | .blockSequence => if hole.inBlock then some ⟨.blockItem [], hole :: s.outer⟩ else none
    | .blockMapping => if hole.inBlock then some ⟨.blockKey [], hole :: s.outer⟩ else none
    | t => stepEmpty hole s.outer t
  | .levelItem _ => if t = .item then s.stepDue t else do (← s.endLevel).stepDue t
  | _ => s.stepDue t

/-- The document, if the text may end here. -/
def finish (s : State) : Option Node :=
  match s.due with
  | .finish n | .ended n => some n
  | _ => none

end State

def run (s : State) : List Token → Option Node
  | [] => s.finish
  | t :: ts =>
    match s.step t with
    | some s => run s ts
    | none => none

/-- The one document that the tokens hold. A marker may stand before it. -/
def document : List Token → Option Node
  | [] => some .empty
  | .documentStart :: ts =>
    match ts with
    | [] | .documentEnd :: _ => run ⟨.finish .empty, []⟩ ts
    | ts => run .initial ts
  | ts => run .initial ts

end Builder

/-- The document that a text holds; an empty text holds an empty scalar. -/
def Node.ofText? (text : String) : Option Node := do Builder.document (← Token.ofText? text)

end TypedCommands.Yaml
