import Lasso.Eval.Handshake
import Lasso.Pair
import Lasso.Program.Graph
import Lasso.Program.Vector
/-!
# Programs side by side

Programs run side by side by taking turns. A synchronizer singles out the actions that are only one
side of something: such an action happens only together with a fitting one of the other program, as
one step with the combined action under both conditions.

* `ProgramGraph.interleave` composes two programs, its locations are pairs;
* `ProgramGraph.system` composes any number, its locations list the location of each. One-sided
  actions wait for a partner until the last program has come.
-/

namespace Lasso

/-- Which actions happen together, and what they are then. -/
structure Synchronizer where
  isOneSided : String → Bool
  agree : String → String → Bool
  combine : String → String → String
  conjoin : String → String → String

/-- Sends and receives on the same channel happen together. -/
def Synchronizer.handshake : Synchronizer where
  isOneSided := Handshake.isOneSided
  agree := Handshake.agree
  combine := Handshake.combine
  conjoin := Handshake.conjoin

/-- Whether an action waits for a partner; none does without a synchronizer. -/
def waits (sync? : Option Synchronizer) (action : String) : Bool :=
  sync?.any (·.isOneSided action)

namespace ProgramGraph

section

variable {L₁ L₂ L : Type} [DecidableEq L₁] [Hashable L₁] [DecidableEq L₂] [Hashable L₂]
  [DecidableEq L] [Hashable L]

/-- The initializations of two programs one behind the other, or those of one if the other has
none. -/
def joinInitializations (xs ys : List (List String)) : List (List String) :=
  xs.flatMap (fun x => ys.map (x ++ ·)) ++ (if xs.isEmpty then ys else []) ++
    (if ys.isEmpty then xs else [])

/-- The steps that a waiting step of the first program takes with partners of the second. -/
def partnerSteps (join : L₁ → L₂ → L) (sync : Synchronizer) (t : ProgramStep L₁)
    (us : List (ProgramStep L₂)) : List (ProgramStep L) :=
  (us.filter fun u => sync.isOneSided u.action && sync.agree t.action u.action).map fun u =>
    ⟨join t.source u.source, sync.conjoin t.condition u.condition, sync.combine t.action u.action,
      join t.target u.target⟩

/-- The steps that come of one step of the first program. -/
def leftSteps (join : L₁ → L₂ → L) (sync? : Option Synchronizer) (keep : Bool)
    (g₂ : ProgramGraph L₂) (t : ProgramStep L₁) : List (ProgramStep L) :=
  let alone := g₂.locations.toList.map fun l =>
    ⟨join t.source l, t.condition, t.action, join t.target l⟩
  match sync? with
  | none => alone
  | some sync =>
    if sync.isOneSided t.action then
      partnerSteps join sync t g₂.steps.toList ++ if keep then alone else []
    else alone

/-- The steps that one step of the second program takes alone. -/
def rightSteps (join : L₁ → L₂ → L) (sync? : Option Synchronizer) (keep : Bool)
    (g₁ : ProgramGraph L₁) (u : ProgramStep L₂) : List (ProgramStep L) :=
  if waits sync? u.action && !keep then []
  else g₁.locations.toList.map fun l => ⟨join l u.source, u.condition, u.action, join l u.target⟩

/-- Two programs side by side, with `join` for the pairs of locations. Waiting actions without a
partner stay if `keep` is set. -/
def interleaveWith (join : L₁ → L₂ → L) (sync? : Option Synchronizer) (keep : Bool)
    (g₁ : ProgramGraph L₁) (g₂ : ProgramGraph L₂) : ProgramGraph L :=
  let places := g₁.locations.toList.flatMap fun x => g₂.locations.toList.map fun y => (x, y)
  let starts := places.filter fun (x, y) => g₁.initial.contains x && g₂.initial.contains y
  let steps := g₁.steps.toList.flatMap (leftSteps join sync? keep g₂) ++
    g₂.steps.toList.flatMap (rightSteps join sync? keep g₁)
  { name := g₁.name ++ "||" ++ g₂.name
    locations := .ofList (places.map fun (x, y) => join x y)
    initial := .ofList (starts.map fun (x, y) => join x y)
    steps := .ofList steps
    initializations := .ofList
      (joinInitializations g₁.initializations.toList g₂.initializations.toList) }

/-- Two programs side by side; waiting actions without a partner are dropped. -/
def interleave (sync? : Option Synchronizer) (g₁ : ProgramGraph L₁) (g₂ : ProgramGraph L₂) :
    ProgramGraph (Pair L₁ L₂) :=
  interleaveWith Pair.mk sync? false g₁ g₂

end

/-- The same program with vectors of one element for its locations. -/
def vectorize (g : ProgramGraph String) : ProgramGraph LocationVector where
  name := g.name
  locations := .ofList (g.locations.toList.map fun l => .ofList [l])
  initial := .ofList (g.initial.toList.map fun l => .ofList [l])
  steps := .ofList (g.steps.toList.map fun t =>
    ⟨.ofList [t.source], t.condition, t.action, .ofList [t.target]⟩)
  initializations := g.initializations

/-- Adds programs to a system one by one. -/
def joinAll (sync? : Option Synchronizer) (g : ProgramGraph LocationVector) :
    List (ProgramGraph String) → ProgramGraph LocationVector
  | [] => g
  | h :: rest =>
    joinAll sync? (interleaveWith LocationVector.append sync? (!rest.isEmpty) g h) rest

/-- Any number of programs side by side. -/
def system (sync? : Option Synchronizer) : List (ProgramGraph String) → ProgramGraph LocationVector
  | [] => .empty ""
  | g :: rest => joinAll sync? g.vectorize rest

end ProgramGraph

end Lasso
