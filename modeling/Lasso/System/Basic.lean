import Lasso.Ordered
import Lasso.System.Error
/-!
# Transition systems

A transition system has states, some of them initial, actions, propositions, transitions and labels,
each in the order in which they were declared. The transitions are also kept by source and by
target.

* A change that speaks of something undeclared, or that takes away something still in use, is
  refused and leaves no trace;
* `label` gives the propositions of a state, `outgoingOf` and `incomingOf` its transitions.
-/

namespace Lasso

/-! ## 1. Systems -/

/-- A step from one state to another by an action. -/
structure Transition (S A : Type) where
  source : S
  action : A
  target : S
  deriving DecidableEq, Hashable

instance {S A : Type} [Display S] [Display A] : Display (Transition S A) where
  text t := Display.text t.source ++ " -" ++ Display.text t.action ++ "-> " ++ Display.text t.target

/-- States with labels, and the steps between them. -/
structure TransitionSystem (S A P : Type) [DecidableEq S] [Hashable S] [DecidableEq A] [Hashable A]
    [DecidableEq P] [Hashable P] where
  name : String
  states : Ordered S := ∅
  initial : Ordered S := ∅
  actions : Ordered A := ∅
  props : Ordered P := ∅
  transitions : Ordered (Transition S A) := ∅
  labels : Std.HashMap S (Ordered P) := ∅
  /-- The transitions by their sources. -/
  outgoing : Std.HashMap S (Ordered (Transition S A)) := ∅
  /-- The transitions by their targets. -/
  incoming : Std.HashMap S (Ordered (Transition S A)) := ∅

namespace TransitionSystem

section

variable {S A P : Type} [DecidableEq S] [Hashable S] [DecidableEq A] [Hashable A]
  [DecidableEq P] [Hashable P]

instance : Inhabited (TransitionSystem S A P) := ⟨{ name := "" }⟩

/-- The system of a name that has nothing in it. -/
def empty (name : String) : TransitionSystem S A P := { name := name }

/-- The label of a state; an undeclared one has none. -/
def label? (m : TransitionSystem S A P) (s : S) : Option (Ordered P) := m.labels[s]?

/-- The label of a state, empty for an undeclared one. -/
def label (m : TransitionSystem S A P) (s : S) : Ordered P := (m.label? s).getD ∅

/-- The transitions that leave a state. -/
def outgoingOf (m : TransitionSystem S A P) (s : S) : List (Transition S A) :=
  (m.outgoing.getD s ∅).toList

/-- The transitions that enter a state. -/
def incomingOf (m : TransitionSystem S A P) (s : S) : List (Transition S A) :=
  (m.incoming.getD s ∅).toList

/-! ## 2. Changes without conditions -/

/-- Declares a state, without label and transitions. -/
def addState (m : TransitionSystem S A P) (s : S) : TransitionSystem S A P :=
  if m.states.contains s then m
  else
    { m with
      states := m.states.insert s
      labels := m.labels.insert s ∅
      outgoing := m.outgoing.insert s ∅
      incoming := m.incoming.insert s ∅ }

def addStates (m : TransitionSystem S A P) (ss : List S) : TransitionSystem S A P :=
  ss.foldl addState m

/-- Declares an action. -/
def addAction (m : TransitionSystem S A P) (a : A) : TransitionSystem S A P :=
  { m with actions := m.actions.insert a }

def addActions (m : TransitionSystem S A P) (as : List A) : TransitionSystem S A P :=
  as.foldl addAction m

/-- Declares a proposition. -/
def addProp (m : TransitionSystem S A P) (p : P) : TransitionSystem S A P :=
  { m with props := m.props.insert p }

def addProps (m : TransitionSystem S A P) (ps : List P) : TransitionSystem S A P :=
  ps.foldl addProp m

/-- Makes a declared state initial. -/
def insertInitial (m : TransitionSystem S A P) (s : S) : TransitionSystem S A P :=
  { m with initial := m.initial.insert s }

/-- Labels a declared state with a declared proposition. -/
def insertLabel (m : TransitionSystem S A P) (s : S) (p : P) : TransitionSystem S A P :=
  { m with labels := m.labels.modify s (·.insert p) }

/-- Enters a transition, whose states and action must be declared. -/
def insertTransition (m : TransitionSystem S A P) (t : Transition S A) : TransitionSystem S A P :=
  if m.transitions.contains t then m
  else
    { m with
      transitions := m.transitions.insert t
      outgoing := m.outgoing.modify t.source (·.insert t)
      incoming := m.incoming.modify t.target (·.insert t) }

/-- Takes a transition away, and tells whether there was one. -/
def removeTransition (m : TransitionSystem S A P) (t : Transition S A) :
    TransitionSystem S A P × Bool :=
  if !m.transitions.contains t then (m, false)
  else
    ({ m with
        transitions := m.transitions.erase t
        outgoing := m.outgoing.modify t.source (·.erase t)
        incoming := m.incoming.modify t.target (·.erase t) }, true)

/-- The system without any label, over other propositions. -/
def clearLabels (m : TransitionSystem S A P) (props : List P) : TransitionSystem S A P :=
  { m with labels := m.labels.map fun _ _ => ∅, props := .ofList props }

/-- The name of the system with the numbers of what it has. -/
def summary (m : TransitionSystem S A P) : String :=
  m.name ++ ": " ++ toString m.states.size ++ " states, " ++ toString m.initial.size ++
    " initial, " ++ toString m.transitions.size ++ " transitions, " ++ toString m.actions.size ++
    " actions, " ++ toString m.props.size ++ " propositions"

/-! ## 3. Checked changes -/

variable [Display S] [Display A] [Display P]

/-- Makes a state initial, or not initial any more. -/
def setInitial (m : TransitionSystem S A P) (s : S) (on : Bool) :
    Except SystemError (TransitionSystem S A P) :=
  if !m.states.contains s then .error (.noState (Display.text s))
  else .ok { m with initial := if on then m.initial.insert s else m.initial.erase s }

/-- Whether a transition stands between declared states and has a declared action. -/
def admits (m : TransitionSystem S A P) (t : Transition S A) : Bool :=
  m.states.contains t.source && m.states.contains t.target && m.actions.contains t.action

/-- Adds a transition between declared states. -/
def addTransition (m : TransitionSystem S A P) (t : Transition S A) :
    Except SystemError (TransitionSystem S A P) :=
  if m.admits t then .ok (m.insertTransition t)
  else .error (.badTransition (Display.text t))

/-- Labels a state with a declared proposition. -/
def addLabel (m : TransitionSystem S A P) (s : S) (p : P) :
    Except SystemError (TransitionSystem S A P) :=
  if !m.labels.contains s then .error (.noState (Display.text s))
  else if !m.props.contains p then .error (.noProposition (Display.text p))
  else .ok { m with labels := m.labels.modify s (·.insert p) }

/-! ## 4. Removals -/

/-- Takes a proposition from the label of a state. -/
def removeLabel (m : TransitionSystem S A P) (s : S) (p : P) :
    Except SystemError (TransitionSystem S A P) :=
  if !m.labels.contains s then .error (.noState (Display.text s))
  else .ok { m with labels := m.labels.modify s (·.erase p) }

/-- Takes a state away that is on no transition, has no label and is not initial. -/
def removeState (m : TransitionSystem S A P) (s : S) :
    Except SystemError (TransitionSystem S A P) :=
  if !m.states.contains s then .error (.noState (Display.text s))
  else if !(m.outgoingOf s).isEmpty || !(m.incomingOf s).isEmpty then
    .error (.stateInTransition (Display.text s))
  else if !(m.label s).isEmpty then .error (.stateLabeled (Display.text s))
  else if m.initial.contains s then .error (.stateInitial (Display.text s))
  else
    .ok { m with
      states := m.states.erase s
      labels := m.labels.erase s
      outgoing := m.outgoing.erase s
      incoming := m.incoming.erase s }

/-- Takes an action away that no transition uses. -/
def removeAction (m : TransitionSystem S A P) (a : A) :
    Except SystemError (TransitionSystem S A P) :=
  if !m.actions.contains a then .error (.noAction (Display.text a))
  else
    match m.transitions.toList.find? (·.action = a) with
    | some t => .error (.actionUsed (Display.text a) (Display.text t))
    | none => .ok { m with actions := m.actions.erase a }

/-- Takes a proposition away that labels no state. -/
def removeProp (m : TransitionSystem S A P) (p : P) :
    Except SystemError (TransitionSystem S A P) :=
  if !m.props.contains p then .error (.noProposition (Display.text p))
  else
    match m.states.toList.find? fun s => (m.label s).contains p with
    | some s => .error (.propositionUsed (Display.text p) (Display.text s))
    | none => .ok { m with props := m.props.erase p }

/-! ## 5. Relabeling -/

/-- Replaces the propositions and all labels. When a label is refused, the states behind it have
none; the cause comes with the system as it is then. -/
def relabel (m : TransitionSystem S A P) (props : List P) (label : S → List P) :
    TransitionSystem S A P × Option SystemError :=
  go (m.states.toList.flatMap fun s => (label s).map (s, ·)) (m.clearLabels props)
where
  go : List (S × P) → TransitionSystem S A P → TransitionSystem S A P × Option SystemError
    | [], m => (m, none)
    | (s, p) :: rest, m =>
      match m.addLabel s p with
      | .ok m => go rest m
      | .error c => (m, some c)

end

end TransitionSystem

end Lasso
