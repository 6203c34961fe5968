import Lasso.Display
import Lasso.Text.Table
/-!
# Verdicts

The answer to the question whether a system has a run that an automaton accepts. Such a run is shown
as a lasso: a stem of states that leads to a cycle of states.
-/

namespace Lasso

/-- What a check says of a property. -/
inductive Verdict (S : Type) where
  /-- No run is accepted. -/
  | holds
  /-- The run that follows the stem and then the cycle for ever is accepted. -/
  | violated (stem cycle : List S)
  deriving DecidableEq, Repr

namespace Verdict

section

variable {S : Type}

/-- Whether the property holds. -/
def isHolds : Verdict S → Bool
  | .holds => true
  | .violated _ _ => false

/-- The states of the accepted run up to the end of the first turn of the cycle. -/
def states : Verdict S → List S
  | .holds => []
  | .violated stem cycle => stem ++ cycle

/-- The steps of a lasso, one to a line behind an arrow. -/
def stepLines [Display S] (arrow : String) (ss : List S) : String :=
  String.join (ss.map fun s => arrow ++ " \t" ++ Display.text s ++ " \n")

/-- Arrows stand in a column four wide. -/
def arrowTable : Text.Table.Format := ⟨4, 0⟩

/-- The verdict in words, with the lasso if there is one. -/
def description [Display S] : Verdict S → String
  | .holds => "Verification succeeded"
  | .violated stem cycle => Text.Table.layout arrowTable
      ("Verification failed. Prefix: \n" ++ stepLines "->" stem ++ "Cycle: \n" ++
        stepLines "=>" cycle)

end

end Verdict

end Lasso
