/-!
# What can be wrong with a transition system

The causes for which a change or a question is refused, and the problems that make a system unfit
for questions about infinite runs. The things they speak of are given by their texts.
-/

namespace Lasso

/-- Why a transition system refuses a change or an answer, or what is wrong with it. -/
inductive SystemError where
  | noState (state : String)
  | noAction (action : String)
  | noProposition (prop : String)
  /-- A transition between undeclared states or with an undeclared action. -/
  | badTransition (transition : String)
  | stateInTransition (state : String)
  | stateLabeled (state : String)
  | stateInitial (state : String)
  | actionUsed (action transition : String)
  | propositionUsed (prop state : String)
  /-- A run with the wrong number of states for its actions. -/
  | malformedRun (states actions : Nat)
  | noInitial (system : String)
  | deadlock (state : String)
  deriving DecidableEq, Repr

namespace SystemError

/-- The kinds of causes. -/
inductive Kind where
  | noState
  | noAction
  | noProposition
  | badTransition
  | stillReferenced
  | malformedRun
  | noInitial
  | deadlock
  deriving DecidableEq, Repr

/-- The kind of a cause. -/
def kind : SystemError → Kind
  | .noState _ => .noState
  | .noAction _ => .noAction
  | .noProposition _ => .noProposition
  | .badTransition _ => .badTransition
  | .stateInTransition _ | .stateLabeled _ | .stateInitial _ | .actionUsed _ _
  | .propositionUsed _ _ => .stillReferenced
  | .malformedRun _ _ => .malformedRun
  | .noInitial _ => .noInitial
  | .deadlock _ => .deadlock

/-- How the reports of a kind start. -/
def Kind.text : Kind → String
  | .noState => "ts: state is not part of the transition system: "
  | .noAction => "ts: action is not part of the transition system: "
  | .noProposition => "ts: atomic proposition is not part of the transition system: "
  | .badTransition => "ts: transition references an undeclared state or action: "
  | .stillReferenced => "ts: element is still referenced: "
  | .malformedRun => "ts: malformed run with "
  | .noInitial => "ts: transition system has no initial state: "
  | .deadlock => "ts: reachable state has no outgoing transition: "

/-- What a report says behind the kind. -/
def detail : SystemError → String
  | .noState s => s
  | .noAction a => a
  | .noProposition p => p
  | .badTransition t => t
  | .stateInTransition s => "state " ++ s ++ " is part of a transition"
  | .stateLabeled s => "state " ++ s ++ " is labeled"
  | .stateInitial s => "state " ++ s ++ " is an initial state"
  | .actionUsed a t => "action " ++ a ++ " is used by " ++ t
  | .propositionUsed p s => "proposition " ++ p ++ " labels state " ++ s
  | .malformedRun n m => toString n ++ " states and " ++ toString m ++ " actions"
  | .noInitial n => n
  | .deadlock s => s

/-- The report of a cause. -/
def message (e : SystemError) : String := e.kind.text ++ e.detail

end SystemError

end Lasso
