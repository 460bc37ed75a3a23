/-! The tokens of a document. Indentation is made explicit: a block opens before its first token
and ends after its last one. A key is announced before its first token, although only the colon
behind it tells that it is one. -/
namespace TypedCommands.Yaml

inductive Token where
  | documentStart
  | documentEnd
  | blockSequence
  | blockMapping
  | blockEnd
  | flowSequence
  | flowSequenceEnd
  | flowMapping
  | flowMappingEnd
  | item
  | comma
  | key
  | value
  | scalar (plain : Bool) (text : String)
  deriving DecidableEq

end TypedCommands.Yaml
