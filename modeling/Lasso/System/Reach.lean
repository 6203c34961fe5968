import Lasso.Search.Explore
import Lasso.System.Basic
/-!
# Reachable states

A search from the initial states along the transitions finds what a system can reach; what it cannot
reach may be dropped without changing any of its runs.

* `TransitionSystem.reach` is the set of reachable states;
* `TransitionSystem.prune` drops the other states, with their transitions and labels;
* `TransitionSystem.pruneProps` drops the propositions that label no state.
-/

namespace Lasso

namespace TransitionSystem

section

variable {S A P : Type} [DecidableEq S] [Hashable S] [DecidableEq A] [Hashable A]
  [DecidableEq P] [Hashable P]

/-! ## 1. Reachability -/

/-- The targets of the transitions that leave a state, in their order. -/
def targetsOf (m : TransitionSystem S A P) (s : S) : List S := (m.outgoingOf s).map (·.target)

/-- The states that can be reached from an initial state, the initial states included. -/
def reach (m : TransitionSystem S A P) : Std.HashSet S :=
  explore m.states.index m.targetsOf m.initial.toList ∅

/-! ## 2. Pruning -/

/-- Keeps the states of a set, with the transitions between them and their labels. -/
def restrict (m : TransitionSystem S A P) (keep : S → Bool) : TransitionSystem S A P :=
  { m with
    transitions := m.transitions.retain fun t => keep t.source && keep t.target
    states := m.states.retain keep
    labels := m.labels.filter fun s _ => keep s
    outgoing := m.outgoing.filter fun s _ => keep s
    incoming := (m.incoming.filter fun s _ => keep s).map fun _ ts =>
      ts.retain fun t => keep t.source }

/-- Drops the states that cannot be reached, and tells how many they were. A reachable state keeps
all that leaves it, since it only leads to reachable states. -/
def prune (m : TransitionSystem S A P) : TransitionSystem S A P × Nat :=
  let reached := m.reach
  let removed := m.states.size - reached.size
  if removed = 0 then (m, 0) else (m.restrict reached.contains, removed)

/-- Drops the propositions that label no state, and tells how many they were. -/
def pruneProps (m : TransitionSystem S A P) : TransitionSystem S A P × Nat :=
  let used : Std.HashSet P := m.labels.fold (fun used _ l => used.insertMany l.toList) ∅
  let props := m.props.retain used.contains
  ({ m with props := props }, m.props.size - props.size)

end

end TransitionSystem

end Lasso
