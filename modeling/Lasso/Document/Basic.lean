/-!
# Documents

A document asks for a verification. It describes a transition system, or programs that run side by
side, together with the properties to check. All things in it are named by texts.
-/

namespace Lasso

namespace Document

/-- A transition of a described system. -/
structure Transition where
  source : String := ""
  action : String := ""
  target : String := ""
  deriving DecidableEq, Repr, Inhabited

/-- A described transition system. -/
structure System where
  states : List String := []
  initial : List String := []
  actions : List String := []
  propositions : List String := []
  transitions : List Transition := []
  /-- The labels of states, by the bytewise order of the states, each of which occurs once. -/
  labels : List (String × List String) := []
  deriving DecidableEq, Repr, Inhabited

/-- A step of a described program. -/
structure Step where
  source : String := ""
  condition : String := ""
  action : String := ""
  target : String := ""
  deriving DecidableEq, Repr, Inhabited

/-- A described program. -/
structure Program where
  name : String := ""
  locations : List String := []
  initial : List String := []
  /-- The statements that each initial environment comes from. -/
  initializations : List (List String) := []
  steps : List Step := []
  deriving DecidableEq, Repr, Inhabited

/-- An edge of a described automaton. It is taken on every label if `any` is set, on the empty label
if `empty` is set, on exactly the label `label` if that is not empty, and otherwise on the labels that
contain `holds`. -/
structure Edge where
  source : String := ""
  target : String := ""
  any : Bool := false
  empty : Bool := false
  label : List String := []
  holds : List String := []
  deriving DecidableEq, Repr, Inhabited

/-- A described automaton. -/
structure Automaton where
  states : List String := []
  initial : List String := []
  accepting : List String := []
  edges : List Edge := []
  deriving DecidableEq, Repr, Inhabited

/-- A property, described by the runs that violate it. The lists name propositions that hold
together. -/
structure Property where
  name : String := ""
  eventually : List String := []
  /-- Only together with `eventually`. -/
  thenAlways : List String := []
  infinitelyOften : List String := []
  never : List String := []
  automaton? : Option Automaton := none
  deriving DecidableEq, Repr, Inhabited

end Document

/-- A request for a verification. -/
structure Document where
  name : String := ""
  /-- Either a system or programs are given. -/
  system? : Option Document.System := none
  programs : List Document.Program := []
  /-- How many values a channel holds; any number if it is zero. -/
  channelCapacity : Int := 0
  /-- If there are any, labels are restricted to these propositions. -/
  observe : List String := []
  properties : List Document.Property := []
  deriving DecidableEq, Repr, Inhabited

end Lasso
