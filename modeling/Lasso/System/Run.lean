import Lasso.System.Query
/-!
# Finite runs

A run is an alternating sequence of states and actions that starts and ends with a state. A run may
be given that is none of the system; the questions of this file tell.
-/

namespace Lasso

/-- The states and the actions of a run, one state more than actions. -/
structure Run (S A : Type) where
  states : List S
  actions : List A
  deriving DecidableEq

namespace TransitionSystem

section

variable {S A P : Type} [DecidableEq S] [Hashable S] [DecidableEq A] [Hashable A]
  [DecidableEq P] [Hashable P] [Display S] [Display A]

/-- Whether each action leads from the state before it to the one behind it. Undeclared states and
actions are refused, as far as all steps before them are transitions. -/
def follows (m : TransitionSystem S A P) : List S → List A → Except SystemError Bool
  | s :: t :: rest, a :: as => do
    m.needState s
    m.needAction a
    m.needState t
    if m.transitions.contains ⟨s, a, t⟩ then m.follows (t :: rest) as else return false
  | _, _ => .ok true

/-- Whether every step of the run is a transition. -/
def isFragment (m : TransitionSystem S A P) (r : Run S A) : Except SystemError Bool := do
  match r with
  | ⟨[], as⟩ => throw (.malformedRun 0 as.length)
  | ⟨s :: ss, as⟩ =>
    if ss.length ≠ as.length then throw (.malformedRun (ss.length + 1) as.length)
    if as.isEmpty then m.needState s
    m.follows (s :: ss) as

/-- Whether every step is a transition and the first state is initial. -/
def isInitialFragment (m : TransitionSystem S A P) (r : Run S A) : Except SystemError Bool := do
  if ← m.isFragment r then return r.states.head?.any m.initial.contains else return false

/-- Whether every step is a transition and nothing leaves the last state. -/
def isMaximalFragment (m : TransitionSystem S A P) (r : Run S A) : Except SystemError Bool := do
  if ← m.isFragment r then
    match r.states.getLast? with
    | some s => m.isTerminal s
    | none => return false
  else return false

/-- Whether the run is initial and maximal. -/
def isExecution (m : TransitionSystem S A P) (r : Run S A) : Except SystemError Bool := do
  if ← m.isInitialFragment r then m.isMaximalFragment r else return false

end

end TransitionSystem

end Lasso
