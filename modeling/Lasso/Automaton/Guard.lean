import Lasso.Ordered
/-!
# Guards

A guard says which labels an edge of an automaton reads.
-/

namespace Lasso

/-- A condition on labels. -/
inductive Guard (P : Type) where
  | always
  /-- The label has these propositions and no other. -/
  | exactly (props : List P)
  /-- The label has all of these propositions. -/
  | all (props : List P)
  /-- The label has some of these propositions. -/
  | some (props : List P)
  | not (guard : Guard P)
  | and (guards : List (Guard P))
  /-- Any other condition on which propositions the label has. -/
  | of (test : (P → Bool) → Bool)
  deriving Inhabited

namespace Guard

section

variable {P : Type} [DecidableEq P] [Hashable P]

mutual

/-- Whether a guard accepts a label. -/
def accepts (label : Ordered P) : Guard P → Bool
  | .always => true
  | .exactly ps => (Ordered.ofList ps).sameMembers label
  | .all ps => ps.all label.contains
  | .some ps => ps.any label.contains
  | .not g => !g.accepts label
  | .and gs => acceptsAll label gs
  | .of test => test label.contains

/-- Whether every guard of a list accepts a label. -/
def acceptsAll (label : Ordered P) : List (Guard P) → Bool
  | [] => true
  | g :: gs => g.accepts label && acceptsAll label gs

end

end

end Guard

end Lasso
