import Lasso.Automaton.Basic
import Lasso.Program.Graph
import Lasso.System.Error
/-!
# What can be wrong with a document

* `Problem` is a flaw of a document that could be read;
* `DocumentError` is the reason why a document is refused.
-/

namespace Lasso

namespace Document

/-- A flaw of a document. -/
inductive Problem where
  | missingName
  | noModel (document : String)
  | twoModels (document : String)
  | negativeCapacity (document : String) (capacity : Int)
  | undeclaredInitial (state : String)
  | undeclaredState (source action target : String)
  | undeclaredAction (source action target : String)
  | labelOfUndeclared (state : String)
  | undeclaredProposition (state prop : String)
  | unnamedProgram
  | undeclaredInitialLocation (program location : String)
  | undeclaredLocation (program source target : String)
  | noProperties (document : String)
  | unnamedProperty
  | shapeCount (property : String) (count : Nat)
  | thenAlwaysAlone (property : String)
  | undeclaredAutomatonState (property state : String)
  | undeclaredEdgeState (property source target : String)
  deriving DecidableEq, Repr

/-- What a flaw consists in. -/
def Problem.text : Problem → String
  | .missingName => "missing name"
  | .noModel d => d ++ ": neither a system nor programs are given"
  | .twoModels d => d ++ ": both a system and programs are given"
  | .negativeCapacity d n => d ++ ": negative channel capacity " ++ toString n
  | .undeclaredInitial s => "initial state " ++ Text.quote s ++ " is not declared"
  | .undeclaredState s a t =>
    "transition " ++ s ++ " -" ++ a ++ "-> " ++ t ++ " references an undeclared state"
  | .undeclaredAction s a t =>
    "transition " ++ s ++ " -" ++ a ++ "-> " ++ t ++ " references an undeclared action"
  | .labelOfUndeclared s => "label of undeclared state " ++ Text.quote s
  | .undeclaredProposition s p =>
    "state " ++ Text.quote s ++ " is labeled with undeclared proposition " ++ Text.quote p
  | .unnamedProgram => "program without name"
  | .undeclaredInitialLocation p l =>
    p ++ ": initial location " ++ Text.quote l ++ " is not declared"
  | .undeclaredLocation p s t =>
    p ++ ": transition " ++ s ++ " -> " ++ t ++ " references an undeclared location"
  | .noProperties d => d ++ ": no properties"
  | .unnamedProperty => "property without name"
  | .shapeCount p n =>
    "property " ++ Text.quote p ++ " must have exactly one shape, has " ++ toString n
  | .thenAlwaysAlone p => "property " ++ Text.quote p ++ " uses thenAlways without eventually"
  | .undeclaredAutomatonState p q =>
    "property " ++ Text.quote p ++ ": automaton state " ++ Text.quote q ++ " is not declared"
  | .undeclaredEdgeState p s t =>
    "property " ++ Text.quote p ++ ": edge " ++ s ++ " -> " ++ t ++
      " references an undeclared state"

/-- How every report about a document starts. -/
def invalid (text : String) : String := "model: invalid document: " ++ text

/-- The report of a flaw. -/
def Problem.message (p : Problem) : String := invalid p.text

end Document

/-- Why a document is refused. -/
inductive DocumentError where
  /-- The text cannot be read as a document. -/
  | malformed
  /-- There is no document in the text. -/
  | empty
  | flawed (problems : List Document.Problem)
  | system (cause : SystemError)
  | program (cause : LocationError)
  | automaton (cause : AutomatonError)
  | noShape (property : String)
  deriving DecidableEq

namespace DocumentError

/-- The report of a refusal; flaws are reported one after the other. -/
def message : DocumentError → String
  | .malformed => Document.invalid "yaml"
  | .empty => Document.invalid "empty document"
  | .flawed ps => "; ".intercalate (ps.map (·.message))
  | .system e => Document.invalid e.message
  | .program e => Document.invalid e.message
  | .automaton e => Document.invalid e.message
  | .noShape p => Document.invalid ("property " ++ Text.quote p ++ " has no shape")

end DocumentError

end Lasso
