import Lasso.Automaton.Basic
import Lasso.Compose.Systems
/-!
# The product of a system and an automaton

The product runs a system while an automaton reads its labels: it moves from `(s, q)` to `(t, r)`
when the system moves from `s` to `t` and the automaton from `q` to `r` on the label of `t`. It
starts where the automaton has read the label of an initial state. A state of the product is labeled
with the state of the automaton.
-/

namespace Lasso

namespace TransitionSystem

section

variable {S A P Q : Type} [DecidableEq S] [Hashable S] [DecidableEq A] [Hashable A]
  [DecidableEq P] [Hashable P] [DecidableEq Q] [Hashable Q]

/-- The transitions of the product that come of one transition of the system. -/
def productTransitions (m : TransitionSystem S A P) (a : Automaton Q P) (t : Transition S A) :
    List (Transition (Pair S Q) A) :=
  a.states.toList.flatMap fun q => (a.next q (m.label t.target)).map fun r =>
    ⟨⟨t.source, q⟩, t.action, ⟨t.target, r⟩⟩

/-- The initial states of the product that come of one initial state of the system. -/
def productInitial (m : TransitionSystem S A P) (a : Automaton Q P) (s : S) : List (Pair S Q) :=
  a.initial.toList.flatMap fun q => (a.next q (m.label s)).map fun r => ⟨s, r⟩

/-- The product with all pairs of states. -/
def productUnpruned (m : TransitionSystem S A P) (a : Automaton Q P) :
    TransitionSystem (Pair S Q) A Q :=
  let p := TransitionSystem.empty (m.name ++ "×automaton")
  let p := (p.addActions m.actions.toList).addProps a.states.toList
  let p := (pairs m.states.toList a.states.toList).foldl
    (fun p s => (p.addState s).insertLabel s s.second) p
  let p := (m.transitions.toList.flatMap (m.productTransitions a)).foldl insertTransition p
  (m.initial.toList.flatMap (m.productInitial a)).foldl insertInitial p

/-- The reachable part of the product, over the states of the automaton that it meets. -/
def product (m : TransitionSystem S A P) (a : Automaton Q P) : TransitionSystem (Pair S Q) A Q :=
  (m.productUnpruned a).prune.1.pruneProps.1

end

end TransitionSystem

end Lasso
