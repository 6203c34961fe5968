/-!
# Tokens of documents
-/

namespace Lasso.Yaml

/-- How a scalar is written. -/
inductive Style where
  | plain
  | singleQuoted
  | doubleQuoted
  | literal
  | folded
  deriving DecidableEq, Repr

/-- The tokens between which blanks and comments may stand. -/
inductive Token where
  | streamEnd
  | documentStart
  | documentEnd
  | version (major minor : Nat)
  /-- A handle that stands for the start of tags. -/
  | tagDirective (handle stem : String)
  | blockSequenceStart
  | blockMappingStart
  | blockEnd
  | flowSequenceStart
  | flowSequenceEnd
  | flowMappingStart
  | flowMappingEnd
  | blockEntry
  | flowEntry
  | key
  | value
  | alias (name : String)
  | anchor (name : String)
  | tag (handle suffix : String)
  | scalar (text : String) (style : Style)
  deriving DecidableEq, Repr

end Lasso.Yaml
