import Lasso.Document.Build
import Lasso.Document.Validate
import Lasso.Document.Write
import Lasso.Report
import Lasso.Verify
/-!
# Verifying documents

Main definition: `Document.verify` checks every property of a document.
-/

namespace Lasso

/-- Why a document could not be verified. -/
inductive DocumentFailure where
  | refused (cause : DocumentError)
  | failed (cause : VerifyError)
  deriving DecidableEq

/-- The report of a failure. -/
def DocumentFailure.message : DocumentFailure → String
  | .refused e => e.message
  | .failed e => e.message

namespace Document

/-- The reports on the properties of a document, with the text of the search trees. -/
structure Outcome where
  reports : List Report
  trees : List String := []
  deriving DecidableEq, Repr

section

variable {S : Type} [DecidableEq S] [Hashable S] [Display S]

/-- Restricts the labels of a system to some propositions. -/
def restrictLabels (props : List String) (m : TransitionSystem S String String) :
    Except SystemError (TransitionSystem S String String) :=
  match m.relabel props fun s => props.filter (m.label s).contains with
  | (m, none) => .ok m
  | (_, some e) => .error e

/-- The report on a property. -/
def reportOf (d : Document) (p : Property) (v : Verdict S) : Report where
  document := d.name
  fingerprint := d.fingerprint
  property := p.name
  holds := v.isHolds
  description := v.description
  stem := match v with
    | .holds => []
    | .violated stem _ => stem.map Display.text
  cycle := match v with
    | .holds => []
    | .violated _ cycle => cycle.map Display.text

/-- Checks the properties of a document, whose automata are given, against its system. -/
def check (o : VerifyOptions) (d : Document) (as : List (Lasso.Automaton String String))
    (m : TransitionSystem S String String) : Except DocumentFailure Outcome := do
  let m ← if d.observe.isEmpty then .ok m
    else (restrictLabels d.observe m).mapError (.refused ∘ .system)
  let (vs, trees) ← (m.verifyAll o as).mapError .failed
  return ⟨List.zipWith (reportOf d) d.properties vs, trees.map (·.newick)⟩

end

/-- Checks every property of a document. The programs of a document run with its own evaluators
unless others are given. -/
def verify (o : VerifyOptions) (evaluators? : Option Evaluators) (d : Document) :
    Except DocumentFailure Outcome := do
  d.validate.mapError .refused
  let as ← (d.properties.mapM Property.build).mapError .refused
  let o := { o with evaluators := evaluators?.getD d.evaluators }
  match d.system? with
  | some s => check o d as (← (s.build d.name).mapError .refused)
  | none =>
    let gs ← d.buildPrograms.mapError .refused
    check o d as (← (unfoldSystem o gs).mapError .failed)

end Document

end Lasso
