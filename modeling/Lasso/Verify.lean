import Lasso.Compose.Programs
import Lasso.Product
import Lasso.Search.Nested
import Lasso.System.Query
import Lasso.Unfold.Program
import Lasso.Verdict
/-!
# Verification

A property is given by an automaton that accepts the runs which violate it. A system is checked by
searching the product of both for a cycle through an accepting state.

* `TransitionSystem.checkEmptiness` searches a product;
* `TransitionSystem.verify` checks a system against one automaton, `verifyAll` against several;
* `unfoldSystem` runs programs side by side and unfolds them.
-/

namespace Lasso

/-! ## 1. Failures -/

/-- Why a check fails. -/
inductive CheckError where
  | canceled
  /-- The search trees could not be written. -/
  | writing (failures : List String)
  deriving DecidableEq, Repr

namespace CheckError

/-- The report of a failure. -/
def message : CheckError → String
  | .canceled => "checking: context canceled"
  | .writing fs => "checking: writing search tree: " ++ "; ".intercalate fs

end CheckError

/-- Why a verification fails. -/
inductive VerifyError where
  | checking (system : String) (cause : CheckError)
  | noPrograms
  | unfolding (program : String) (cause : UnfoldError)
  deriving DecidableEq

namespace VerifyError

/-- The report of a failure. -/
def message : VerifyError → String
  | .checking n c => "gofvm: checking " ++ n ++ ": " ++ c.message
  | .noPrograms => "gofvm: no program graphs to unfold"
  | .unfolding n c => "gofvm: unfolding " ++ n ++ ": " ++ c.message

end VerifyError

/-! ## 2. Checks -/

/-- How systems and programs are verified. -/
structure VerifyOptions extends UnfoldOptions where
  sync? : Option Synchronizer := some .handshake
  /-- How many checks may run at the same time; any number if it is not positive. -/
  concurrency : Int := 0

/-- Takes a line of a search tree, or says why it cannot. -/
abbrev TreeWriter := String → Option String

/-- The failures of writers that write the lines of a search tree, each up to its first failure. -/
def writeFailures (writers : List TreeWriter) (lines : List String) : List String :=
  writers.filterMap fun w => lines.findSome? w

namespace TransitionSystem

section

variable {S A P Q : Type} [DecidableEq S] [Hashable S] [DecidableEq A] [Hashable A]
  [DecidableEq P] [Hashable P] [DecidableEq Q] [Hashable Q]

/-- The search of a product: its verdict, and the search trees. -/
structure Checked (S Q : Type) where
  verdict : Verdict S
  trees : Forest (Pair S Q)

/-- The states of the system in a lasso of the product. -/
def verdictOf (lasso? : Option (List (Pair S Q) × List (Pair S Q))) : Verdict S :=
  match lasso? with
  | none => .holds
  | some (stem, cycle) => .violated (stem.map (·.first)) (cycle.map (·.first))

/-- Searches a product for a cycle through a state in which the automaton accepts. -/
def checkEmptiness [Display S] [Display Q] (p : TransitionSystem (Pair S Q) A Q)
    (accepting : Q → Bool) (writers : List TreeWriter) (canceled : Bool) :
    Except CheckError (Checked S Q) := do
  if canceled && !p.initial.isEmpty then throw .canceled
  let w := sweep p.states.index p.next (fun s => accepting s.second) p.initial.toList
  let failures := writeFailures writers (w.forest.trees.map fun t => t.newick ++ ";\n")
  if !failures.isEmpty then throw (.writing failures)
  return ⟨verdictOf (w.lasso? p.states.index p.next), w.forest⟩

/-- Checks that no run of the system is accepted by the automaton. -/
def verify [Display S] [Display Q] (o : VerifyOptions) (m : TransitionSystem S A P)
    (a : Automaton Q P) : Except VerifyError (Checked S Q) :=
  ((m.product a).checkEmptiness a.accepting.contains [] o.canceled).mapError (.checking m.name)

/-- Checks the system against each automaton. The search trees are kept only if there is one
automaton or the checks run one after the other. -/
def verifyAll [Display S] [Display Q] (o : VerifyOptions) (m : TransitionSystem S A P)
    (as : List (Automaton Q P)) : Except VerifyError (List (Verdict S) × List (Forest (Pair S Q))) := do
  let rs ← as.mapM (m.verify o)
  return (rs.map (·.verdict), if o.concurrency ≠ 1 && as.length > 1 then [] else rs.map (·.trees))

end

end TransitionSystem

/-- The transition system of programs that run side by side. -/
def unfoldSystem (o : VerifyOptions) (gs : List (ProgramGraph String)) :
    Except VerifyError
      (TransitionSystem (ProgramGraph.State LocationVector) String String) :=
  if gs.isEmpty then .error .noPrograms
  else
    let g := ProgramGraph.system o.sync? gs
    (g.unfold o.toUnfoldOptions).mapError (.unfolding g.name)

/-- Checks programs that run side by side against an automaton. -/
def verifyPrograms {Q : Type} [DecidableEq Q] [Hashable Q] [Display Q] (o : VerifyOptions)
    (a : Automaton Q String) (gs : List (ProgramGraph String)) :
    Except VerifyError
      (TransitionSystem.Checked (ProgramGraph.State LocationVector) Q) := do
  let m ← unfoldSystem o gs
  m.verify o a

end Lasso
