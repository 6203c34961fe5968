import Lasso.Ordered
/-!
# Program graphs

A program is a graph of locations. Its transitions carry a condition, under which they may be taken,
and an action, which changes the environment; both are texts whose meaning the evaluators give. Each
initialization is a list of statements that leads to one initial environment.
-/

namespace Lasso

/-- A guarded step of a program. -/
structure ProgramStep (L : Type) where
  source : L
  condition : String
  action : String
  target : L
  deriving DecidableEq, Hashable

instance {L : Type} [Display L] : Display (ProgramStep L) where
  text t := Display.text t.source ++ " -[" ++ t.condition ++ " / " ++ t.action ++ "]-> " ++
    Display.text t.target

/-- A location that a program does not have. -/
structure LocationError where
  location : String
  deriving DecidableEq, Repr

/-- The report of an unknown location. -/
def LocationError.message (e : LocationError) : String := "pg: location not found: " ++ e.location

/-- Locations and the guarded steps between them. -/
structure ProgramGraph (L : Type) [DecidableEq L] [Hashable L] where
  name : String
  locations : Ordered L := ∅
  initial : Ordered L := ∅
  steps : Ordered (ProgramStep L) := ∅
  /-- The lists of statements that lead to the initial environments, each once. -/
  initializations : Ordered (List String) := ∅

namespace ProgramGraph

section

variable {L : Type} [DecidableEq L] [Hashable L]

instance : Inhabited (ProgramGraph L) := ⟨{ name := "" }⟩

/-- The program of a name that has nothing in it. -/
def empty (name : String) : ProgramGraph L := { name := name }

/-- Declares a location. -/
def addLocation (g : ProgramGraph L) (l : L) : ProgramGraph L :=
  { g with locations := g.locations.insert l }

def addLocations (g : ProgramGraph L) (ls : List L) : ProgramGraph L := ls.foldl addLocation g

/-- Makes a declared location initial. -/
def insertInitial (g : ProgramGraph L) (l : L) : ProgramGraph L :=
  { g with initial := g.initial.insert l }

/-- Enters a step between declared locations. -/
def insertStep (g : ProgramGraph L) (t : ProgramStep L) : ProgramGraph L :=
  { g with steps := g.steps.insert t }

/-- Adds the statements of an initialization, unless they are there already. -/
def addInitialization (g : ProgramGraph L) (stmts : List String) : ProgramGraph L :=
  { g with initializations := g.initializations.insert stmts }

/-- The steps that leave a location. -/
def outgoing (g : ProgramGraph L) (l : L) : List (ProgramStep L) :=
  g.steps.toList.filter (·.source = l)

/-- The name of the program with the numbers of what it has. -/
def summary (g : ProgramGraph L) : String :=
  g.name ++ ": " ++ toString g.locations.size ++ " locations, " ++ toString g.steps.size ++
    " transitions, " ++ toString g.initializations.size ++ " initializations"

variable [Display L]

/-- Refuses an undeclared location. -/
def needLocation (g : ProgramGraph L) (l : L) : Except LocationError Unit :=
  if g.locations.contains l then .ok () else .error ⟨Display.text l⟩

/-- Makes a location initial, or not initial any more. -/
def setInitial (g : ProgramGraph L) (l : L) (on : Bool) : Except LocationError (ProgramGraph L) := do
  g.needLocation l
  return if on then g.insertInitial l else { g with initial := g.initial.erase l }

/-- Adds a step between declared locations. -/
def addStep (g : ProgramGraph L) (t : ProgramStep L) : Except LocationError (ProgramGraph L) := do
  g.needLocation t.source
  g.needLocation t.target
  return g.insertStep t

end

end ProgramGraph

end Lasso
