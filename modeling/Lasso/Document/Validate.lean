import Lasso.Document.Basic
import Lasso.Document.Error
/-!
# The flaws of documents

Main definition: `Document.problems` lists all flaws of a document, part by part.
-/

namespace Lasso.Document

/-- A problem if something is not as it should be. -/
def problemIf (bad : Bool) (p : Problem) : List Problem := if bad then [p] else []

/-! ## 1. Systems -/

def Transition.problems (s : System) (t : Transition) : List Problem :=
  problemIf (!(s.states.contains t.source && s.states.contains t.target))
      (.undeclaredState t.source t.action t.target) ++
    problemIf (!s.actions.contains t.action) (.undeclaredAction t.source t.action t.target)

/-- The flaws of the label of a state. -/
def labelProblems (s : System) (state : String) (props : List String) : List Problem :=
  problemIf (!s.states.contains state) (.labelOfUndeclared state) ++
    (props.filter fun p => !s.propositions.contains p).map (.undeclaredProposition state)

/-- Flaws in the bytewise order of their reports. -/
def sortProblems (ps : List Problem) : List Problem :=
  ps.mergeSort fun p q => !nameLt q.message p.message

/-- The flaws of a system; those of the labels come last, in the order of their reports. -/
def System.problems (s : System) : List Problem :=
  (s.initial.filter fun i => !s.states.contains i).map .undeclaredInitial ++
    s.transitions.flatMap (·.problems s) ++
    sortProblems (s.labels.flatMap fun (state, props) => labelProblems s state props)

/-! ## 2. Programs -/

def Program.problems (p : Program) : List Problem :=
  problemIf p.name.isEmpty .unnamedProgram ++
    (p.initial.filter fun l => !p.locations.contains l).map (.undeclaredInitialLocation p.name) ++
    p.steps.flatMap fun t =>
      problemIf (!(p.locations.contains t.source && p.locations.contains t.target))
        (.undeclaredLocation p.name t.source t.target)

/-! ## 3. Properties -/

/-- How many shapes a property has. -/
def Property.shapes (p : Property) : Nat :=
  [!p.eventually.isEmpty, !p.infinitelyOften.isEmpty, !p.never.isEmpty, p.automaton?.isSome].count true

/-- The flaws of the automaton of a property. -/
def Automaton.problems (property : String) (a : Automaton) : List Problem :=
  ((a.initial ++ a.accepting).filter fun q => !a.states.contains q).map
      (.undeclaredAutomatonState property) ++
    a.edges.flatMap fun e =>
      problemIf (!(a.states.contains e.source && a.states.contains e.target))
        (.undeclaredEdgeState property e.source e.target)

def Property.problems (p : Property) : List Problem :=
  problemIf p.name.isEmpty .unnamedProperty ++
    problemIf (p.shapes ≠ 1) (.shapeCount p.name p.shapes) ++
    problemIf (!p.thenAlways.isEmpty && p.eventually.isEmpty) (.thenAlwaysAlone p.name) ++
    (match p.automaton? with
      | some a => a.problems p.name
      | none => [])

/-! ## 4. Documents -/

/-- The flaws of a document. -/
def problems (d : Document) : List Problem :=
  problemIf d.name.isEmpty .missingName ++
    problemIf (d.system?.isNone && d.programs.isEmpty) (.noModel d.name) ++
    problemIf (d.system?.isSome && !d.programs.isEmpty) (.twoModels d.name) ++
    problemIf (d.channelCapacity < 0) (.negativeCapacity d.name d.channelCapacity) ++
    (match d.system? with
      | some s => s.problems
      | none => []) ++
    d.programs.flatMap Program.problems ++
    problemIf d.properties.isEmpty (.noProperties d.name) ++
    d.properties.flatMap Property.problems

/-- Refuses a document that has flaws. -/
def validate (d : Document) : Except DocumentError Unit :=
  if d.problems.isEmpty then .ok () else .error (.flawed d.problems)

end Lasso.Document
