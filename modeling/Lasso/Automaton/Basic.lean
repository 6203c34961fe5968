import Lasso.Automaton.Guard
/-!
# Automata

An automaton reads the labels of a run one after the other. It may take an edge whenever the guard
of the edge accepts the label, and it accepts a run when some way to read it meets an accepting
state again and again.
-/

namespace Lasso

/-- An edge that is taken on the labels its guard accepts. -/
structure Edge (Q P : Type) where
  source : Q
  guard : Guard P
  target : Q

/-- A state that an automaton does not have. -/
structure AutomatonError where
  state : String
  deriving DecidableEq, Repr

/-- The report of an unknown state. -/
def AutomatonError.message (e : AutomatonError) : String := "automaton: state not found: " ++ e.state

/-- States and guarded edges. -/
structure Automaton (Q P : Type) [DecidableEq Q] [Hashable Q] where
  states : Ordered Q := ∅
  initial : Ordered Q := ∅
  accepting : Ordered Q := ∅
  edges : Array (Edge Q P) := #[]

namespace Automaton

section

variable {Q P : Type} [DecidableEq Q] [Hashable Q]

instance : Inhabited (Automaton Q P) := ⟨{}⟩

/-- The automaton without states. -/
def empty : Automaton Q P := {}

/-- Declares a state. -/
def addState (a : Automaton Q P) (q : Q) : Automaton Q P := { a with states := a.states.insert q }

def addStates (a : Automaton Q P) (qs : List Q) : Automaton Q P := qs.foldl addState a

/-- The states that may follow when a label is read, each once, in the order of the edges. -/
def next [DecidableEq P] [Hashable P] (a : Automaton Q P) (q : Q) (label : Ordered P) : List Q :=
  (Ordered.ofList ((a.edges.toList.filter fun e => e.source = q && e.guard.accepts label).map
    (·.target))).toList

/-- The numbers of what the automaton has. -/
def summary (a : Automaton Q P) : String :=
  "automaton: " ++ toString a.states.size ++ " states, " ++ toString a.initial.size ++
    " initial, " ++ toString a.accepting.size ++ " accepting, " ++ toString a.edges.size ++ " edges"

variable [Display Q]

/-- Refuses an undeclared state. -/
def needState (a : Automaton Q P) (q : Q) : Except AutomatonError Unit :=
  if a.states.contains q then .ok () else .error ⟨Display.text q⟩

/-- Makes a state initial, or not initial any more. -/
def setInitial (a : Automaton Q P) (q : Q) (on : Bool) : Except AutomatonError (Automaton Q P) := do
  a.needState q
  return { a with initial := if on then a.initial.insert q else a.initial.erase q }

/-- Makes a state accepting, or not accepting any more. -/
def setAccepting (a : Automaton Q P) (q : Q) (on : Bool) :
    Except AutomatonError (Automaton Q P) := do
  a.needState q
  return { a with accepting := if on then a.accepting.insert q else a.accepting.erase q }

/-- Adds an edge between declared states. -/
def addEdge (a : Automaton Q P) (e : Edge Q P) : Except AutomatonError (Automaton Q P) := do
  a.needState e.source
  a.needState e.target
  return { a with edges := a.edges.push e }

end

end Automaton

end Lasso
