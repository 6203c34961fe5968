import Lasso.Automaton.Shapes
import Lasso.Document.Basic
import Lasso.Document.Error
import Lasso.Eval.Evaluators
import Lasso.System.Basic
/-!
# From documents to systems, programs and automata
-/

namespace Lasso.Document

/-- The system that is described, or what is wrong with it. -/
def System.assemble (s : System) (name : String) :
    Except SystemError (TransitionSystem String String String) := do
  let m : TransitionSystem String String String := .empty name
  let m := ((m.addStates s.states).addActions s.actions).addProps s.propositions
  let m ← s.initial.foldlM (fun m i => TransitionSystem.setInitial m i true) m
  let m ← s.transitions.foldlM
    (fun m t => TransitionSystem.addTransition m ⟨t.source, t.action, t.target⟩) m
  s.labels.foldlM (fun m l => l.2.foldlM (fun m p => TransitionSystem.addLabel m l.1 p) m) m

/-- The system that is described. -/
def System.build (s : System) (name : String) :
    Except DocumentError (TransitionSystem String String String) :=
  (s.assemble name).mapError .system

/-- The program that is described, or what is wrong with it. -/
def Program.assemble (p : Program) : Except LocationError (ProgramGraph String) := do
  let g := (ProgramGraph.empty p.name).addLocations p.locations
  let g ← p.initial.foldlM (fun g l => ProgramGraph.setInitial g l true) g
  let g := p.initializations.foldl ProgramGraph.addInitialization g
  p.steps.foldlM (fun g s => ProgramGraph.addStep g ⟨s.source, s.condition, s.action, s.target⟩) g

/-- The program that is described. -/
def Program.build (p : Program) : Except DocumentError (ProgramGraph String) :=
  p.assemble.mapError .program

/-- The programs of a document. -/
def buildPrograms (d : Document) : Except DocumentError (List (ProgramGraph String)) :=
  d.programs.mapM Program.build

/-- When an edge is taken. -/
def Edge.guard (e : Edge) : Guard String :=
  if e.any then .always
  else if e.empty then .exactly []
  else if !e.label.isEmpty then .exactly e.label
  else .all e.holds

/-- The automaton that is described, or what is wrong with it. -/
def Automaton.assemble (a : Automaton) : Except AutomatonError (Lasso.Automaton String String) := do
  let m : Lasso.Automaton String String := Lasso.Automaton.empty.addStates a.states
  let m ← a.initial.foldlM (fun m q => Lasso.Automaton.setInitial m q true) m
  let m ← a.accepting.foldlM (fun m q => Lasso.Automaton.setAccepting m q true) m
  a.edges.foldlM (fun m e => Lasso.Automaton.addEdge m ⟨e.source, e.guard, e.target⟩) m

/-- The automaton that is described. -/
def Automaton.build (a : Automaton) : Except DocumentError (Lasso.Automaton String String) :=
  a.assemble.mapError .automaton

/-- The automaton that accepts the runs which violate a property. -/
def Property.build (p : Property) : Except DocumentError (Lasso.Automaton String String) :=
  if !p.eventually.isEmpty && !p.thenAlways.isEmpty then
    .ok (.eventuallyThenAlways (.all p.eventually) (.all p.thenAlways))
  else if !p.eventually.isEmpty then .ok (.eventually (.all p.eventually))
  else if !p.infinitelyOften.isEmpty then .ok (.infinitelyOften (.all p.infinitelyOften))
  else if !p.never.isEmpty then .ok (.never (.all p.never))
  else
    match p.automaton? with
    | some a => a.build
    | none => .error (.noShape p.name)

/-- What the conditions and actions of the programs mean. -/
def evaluators (d : Document) : Evaluators where
  conditions := [.expressions]
  actions := [.handshake, .channels d.channelCapacity, .assignments]

end Lasso.Document
