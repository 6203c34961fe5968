import Lasso.System.Reach
/-!
# Questions to a transition system

Successors and predecessors of states and of sets of states, determinism, and the problems that
stand against questions about infinite runs.
-/

namespace Lasso

namespace TransitionSystem

section

variable {S A P : Type} [DecidableEq S] [Hashable S] [DecidableEq A] [Hashable A]
  [DecidableEq P] [Hashable P]

/-- The distinct successors of a state, in the order of its transitions. -/
def next (m : TransitionSystem S A P) (s : S) : List S := (Ordered.ofList (m.targetsOf s)).toList

variable [Display S] [Display A]

/-! ## 1. Successors and predecessors -/

/-- Refuses an undeclared state. -/
def needState (m : TransitionSystem S A P) (s : S) : Except SystemError Unit :=
  if m.states.contains s then .ok () else .error (.noState (Display.text s))

/-- Refuses an undeclared action. -/
def needAction (m : TransitionSystem S A P) (a : A) : Except SystemError Unit :=
  if m.actions.contains a then .ok () else .error (.noAction (Display.text a))

/-- The distinct successors of a declared state, in the order of its transitions. -/
def successors (m : TransitionSystem S A P) (s : S) : Except SystemError (List S) := do
  m.needState s
  return m.next s

/-- The states one step behind a state. -/
def post (m : TransitionSystem S A P) (s : S) : Except SystemError (Ordered S) := do
  m.needState s
  return .ofList (m.targetsOf s)

/-- The states one step by an action behind a state. -/
def postBy (m : TransitionSystem S A P) (s : S) (a : A) : Except SystemError (Ordered S) := do
  m.needState s
  m.needAction a
  return .ofList (((m.outgoingOf s).filter (·.action = a)).map (·.target))

/-- The states one step before a state. -/
def pre (m : TransitionSystem S A P) (s : S) : Except SystemError (Ordered S) := do
  m.needState s
  return .ofList ((m.incomingOf s).map (·.source))

/-- The states one step by an action before a state. -/
def preBy (m : TransitionSystem S A P) (s : S) (a : A) : Except SystemError (Ordered S) := do
  m.needState s
  m.needAction a
  return .ofList (((m.incomingOf s).filter (·.action = a)).map (·.source))

/-- The union of what is asked of each state of a set. -/
def unionOver (ask : S → Except SystemError (Ordered S)) (c : Ordered S) :
    Except SystemError (Ordered S) :=
  c.toList.foldlM (fun acc s => do return acc.union (← ask s)) ∅

/-- The states one step behind a set. -/
def postAll (m : TransitionSystem S A P) (c : Ordered S) : Except SystemError (Ordered S) :=
  unionOver m.post c

/-- The states one step by an action behind a set. -/
def postAllBy (m : TransitionSystem S A P) (c : Ordered S) (a : A) :
    Except SystemError (Ordered S) := do
  m.needAction a
  unionOver (m.postBy · a) c

/-- The states one step before a set. -/
def preAll (m : TransitionSystem S A P) (c : Ordered S) : Except SystemError (Ordered S) :=
  unionOver m.pre c

/-- The states one step by an action before a set. -/
def preAllBy (m : TransitionSystem S A P) (c : Ordered S) (a : A) :
    Except SystemError (Ordered S) := do
  m.needAction a
  unionOver (m.preBy · a) c

/-- Whether no transition leaves a state. -/
def isTerminal (m : TransitionSystem S A P) (s : S) : Except SystemError Bool := do
  m.needState s
  return (m.outgoingOf s).isEmpty

/-! ## 2. Determinism -/

omit [Display S] [Display A] in
/-- The reachable states, in order. -/
def reachable (m : TransitionSystem S A P) : List S :=
  let reached := m.reach
  m.states.toList.filter reached.contains

omit [Display S] [Display A] in
/-- Whether each transition leads where the last one by its action did, if there was one. -/
def repeatsTargets : List (Transition S A) → Std.HashMap A S → Bool
  | [], _ => true
  | t :: ts, last =>
    if last[t.action]?.any (· ≠ t.target) then false
    else repeatsTargets ts (last.insert t.action t.target)

omit [Display S] [Display A] in
/-- Whether there is at most one initial state, and no reachable state has two successors by the
same action. -/
def isActionDeterministic (m : TransitionSystem S A P) : Bool :=
  m.initial.size ≤ 1 && m.reachable.all fun s => repeatsTargets (m.outgoingOf s) ∅

omit [Display S] [Display A] in
/-- Whether no state has the label of a later one. -/
def labelsApart (m : TransitionSystem S A P) : List S → Bool
  | [] => true
  | s :: ss => (ss.all fun t => !(m.label s).sameMembers (m.label t)) && m.labelsApart ss

omit [Display S] [Display A] in
/-- Whether there is at most one initial state, and no reachable state has two successors with the
same label. -/
def isLabelDeterministic (m : TransitionSystem S A P) : Bool :=
  m.initial.size ≤ 1 && m.reachable.all fun s => m.labelsApart (m.next s)

/-! ## 3. Problems -/

omit [Display A] in
/-- What makes the system unfit for questions about infinite runs: no initial state, and reachable
states that nothing leaves. -/
def problems (m : TransitionSystem S A P) : List SystemError :=
  (if m.initial.isEmpty then [.noInitial m.name] else []) ++
    (m.reachable.filter fun s => (m.outgoingOf s).isEmpty).map fun s => .deadlock (Display.text s)

end

end TransitionSystem

end Lasso
