import Lasso.Eval.Evaluators
import Lasso.Pair
import Lasso.Program.Graph
import Lasso.System.Basic
/-!
# Unfolding a program

The states of a program are its locations with the environments that it can have there. Unfolding
starts from the initial locations with the initial environments and follows every step whose
condition holds and whose action is not blocked. A state is labeled with the parts of its location
and with the entries of its environment.

* `UnfoldError` says why an unfolding fails;
* `ProgramGraph.unfold` is the transition system of a program.
-/

namespace Lasso

/-! ## 1. Failures -/

/-- Why an unfolding fails. -/
inductive UnfoldError where
  /-- An initialization cannot be run. -/
  | initialization (program : String) (cause : EvalError)
  /-- A condition or an action cannot be evaluated in a state. -/
  | step (program state : String) (cause : EvalError)
  | canceled (program : String)
  /-- There are more states than allowed. -/
  | limit (states : Int) (program : String)
  /-- There is always another state to follow. -/
  | endless (program : String)
  deriving DecidableEq

namespace UnfoldError

/-- The report of a failure. -/
def message : UnfoldError → String
  | .initialization p c => "unfold " ++ p ++ ": " ++ c.message
  | .step p s c => "unfold " ++ p ++ " at " ++ s ++ ": " ++ c.message
  | .canceled p => "unfold " ++ p ++ ": context canceled"
  | .limit n p => "unfold: state limit exceeded: more than " ++ toString n ++ " states in " ++ p
  | .endless p => "unfold " ++ p ++ ": too many states"

end UnfoldError

/-! ## 2. Unfolding -/

/-- How a program is unfolded. -/
structure UnfoldOptions where
  evaluators : Evaluators := {}
  /-- The greatest number of states allowed; there is no limit unless it is positive. -/
  maxStates : Int := 0
  /-- Whether the work is called off before it starts. -/
  canceled : Bool := false

namespace ProgramGraph

section

variable {L : Type} [DecidableEq L] [Hashable L] [Display L]

/-- A state of a program: where it is and what its variables hold. -/
abbrev State (L : Type) := Pair L Env

/-- A transition system that is being built, with the states whose steps are not followed yet. -/
structure Unfolding (L : Type) [DecidableEq L] [Hashable L] where
  system : TransitionSystem (State L) String String
  waiting : List (State L) := []

omit [Display L] in
/-- The initial environments: those the initializations lead to, each once, or the empty one if
there is no initialization. -/
def initialEnvs (ev : Evaluators) (g : ProgramGraph L) : Except UnfoldError (List Env) := do
  let es ← g.initializations.toList.mapM fun stmts =>
    (ev.initial stmts).mapError (.initialization g.name)
  return if es.isEmpty then [∅] else (Ordered.ofList es).toList

omit [Display L] in
/-- Enters a state unless it is known, if there is room for it. -/
def discover (o : UnfoldOptions) (name : String) (u : Unfolding L) (s : State L) :
    Except UnfoldError (Unfolding L) :=
  if u.system.states.contains s then .ok u
  else if o.maxStates > 0 && u.system.states.size ≥ o.maxStates then .error (.limit o.maxStates name)
  else .ok ⟨u.system.addState s, s :: u.waiting⟩

/-- The state that a step leads to, if it can be taken. -/
def takeStep (ev : Evaluators) (name : String) (s : State L) (t : ProgramStep L) :
    Except UnfoldError (Option (State L)) := do
  let enabled ← (ev.holds s.second t.condition).mapError (.step name (Display.text s))
  if !enabled then return none
  match ← (ev.effect s.second t.action).mapError (.step name (Display.text s)) with
  | none => return none
  | some e => return some ⟨t.target, e⟩

/-- Follows one step from a state. -/
def followStep (o : UnfoldOptions) (name : String) (s : State L) (u : Unfolding L)
    (t : ProgramStep L) : Except UnfoldError (Unfolding L) := do
  match ← takeStep o.evaluators name s t with
  | none => return u
  | some target =>
    let u ← discover o name u target
    return { u with system := u.system.insertTransition ⟨s, t.action, target⟩ }

/-- Follows the steps from all waiting states and from those they lead to; nothing when that has no
end. -/
def followAll? (o : UnfoldOptions) (g : ProgramGraph L) (u : Unfolding L) :
    Option (Except UnfoldError (TransitionSystem (State L) String String)) :=
  match u.waiting with
  | [] => some (.ok u.system)
  | s :: rest =>
    if o.canceled then some (.error (.canceled g.name))
    else
      match (g.outgoing s.first).foldlM (followStep o g.name s) ⟨u.system, rest⟩ with
      | .error c => some (.error c)
      | .ok u => g |>.followAll? o u
partial_fixpoint

/-- The propositions of a state: the parts of its location and the entries of its environment. -/
def stateProps (s : State L) : List String := Display.parts s.first ++ s.second.entryTexts

/-- Labels every state with its propositions. -/
def labelStates (m : TransitionSystem (State L) String String) :
    TransitionSystem (State L) String String :=
  m.states.toList.foldl (fun m s =>
    (stateProps s).foldl (fun m p => (m.addProp p).insertLabel s p) m) m

/-- The transition system of a program. -/
def unfold (o : UnfoldOptions) (g : ProgramGraph L) :
    Except UnfoldError (TransitionSystem (State L) String String) := do
  let es ← g.initialEnvs o.evaluators
  let starts : List (State L) := es.flatMap fun e => g.initial.toList.map fun l => ⟨l, e⟩
  let system := (TransitionSystem.empty g.name).addActions (g.steps.toList.map (·.action))
  let u ← starts.foldlM (fun u s => do
    let u ← discover o g.name u s
    return { u with system := u.system.insertInitial s }) (⟨system, []⟩ : Unfolding L)
  let system ← (followAll? o g u).getD (.error (.endless g.name))
  return labelStates system

end

end ProgramGraph

end Lasso
