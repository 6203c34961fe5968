import Lasso.Pair
import Lasso.System.Reach
/-!
# Systems side by side

The states of a composition are the pairs of states of its two sides. Actions of the handshake
happen on both sides at once; all others on one side, while the other stays where it is. Only what
can be reached is kept.
-/

namespace Lasso

namespace TransitionSystem

section

variable {S₁ S₂ A P : Type} [DecidableEq S₁] [Hashable S₁] [DecidableEq S₂] [Hashable S₂]
  [DecidableEq A] [Hashable A] [DecidableEq P] [Hashable P]

/-- All pairs of states, in the order of the first side. -/
def pairs (xs : List S₁) (ys : List S₂) : List (Pair S₁ S₂) :=
  xs.flatMap fun x => ys.map fun y => ⟨x, y⟩

/-- The transitions that both sides take at once. -/
def jointTransitions (handshake : A → Bool) (m₁ : TransitionSystem S₁ A P)
    (m₂ : TransitionSystem S₂ A P) : List (Transition (Pair S₁ S₂) A) :=
  (m₁.transitions.toList.filter (handshake ·.action)).flatMap fun t =>
    (m₂.transitions.toList.filter (t.action = ·.action)).map fun u =>
      ⟨⟨t.source, u.source⟩, t.action, ⟨t.target, u.target⟩⟩

/-- The transitions of the first side, with each state of the second. -/
def leftTransitions (handshake : A → Bool) (m₁ : TransitionSystem S₁ A P)
    (m₂ : TransitionSystem S₂ A P) : List (Transition (Pair S₁ S₂) A) :=
  (m₁.transitions.toList.filter fun t => !handshake t.action).flatMap fun t =>
    m₂.states.toList.map fun s => ⟨⟨t.source, s⟩, t.action, ⟨t.target, s⟩⟩

/-- The transitions of the second side, with each state of the first. -/
def rightTransitions (handshake : A → Bool) (m₁ : TransitionSystem S₁ A P)
    (m₂ : TransitionSystem S₂ A P) : List (Transition (Pair S₁ S₂) A) :=
  (m₂.transitions.toList.filter fun u => !handshake u.action).flatMap fun u =>
    m₁.states.toList.map fun s => ⟨⟨s, u.source⟩, u.action, ⟨s, u.target⟩⟩

/-- The label of a pair: the label of its first state, then that of the second. -/
def pairLabel (m₁ : TransitionSystem S₁ A P) (m₂ : TransitionSystem S₂ A P) (s : Pair S₁ S₂) :
    List P :=
  (m₁.label s.first).toList ++ (m₂.label s.second).toList

/-- The composition with all pairs of states. -/
def besideUnpruned (m₁ : TransitionSystem S₁ A P) (m₂ : TransitionSystem S₂ A P)
    (handshake : A → Bool) : TransitionSystem (Pair S₁ S₂) A P :=
  let states := pairs m₁.states.toList m₂.states.toList
  let m := (TransitionSystem.empty (m₁.name ++ "||" ++ m₂.name)).addStates states
  let m := (m.addActions m₁.actions.toList).addActions m₂.actions.toList
  let m := (m.addProps m₁.props.toList).addProps m₂.props.toList
  let m := (jointTransitions handshake m₁ m₂).foldl insertTransition m
  let m := (leftTransitions handshake m₁ m₂).foldl insertTransition m
  let m := (rightTransitions handshake m₁ m₂).foldl insertTransition m
  let m := (pairs m₁.initial.toList m₂.initial.toList).foldl insertInitial m
  states.foldl (fun m s => (pairLabel m₁ m₂ s).foldl (·.insertLabel s ·) m) m

/-- The reachable part of two systems side by side. The actions of the handshake happen on both
sides at once. -/
def beside (m₁ : TransitionSystem S₁ A P) (m₂ : TransitionSystem S₂ A P) (handshake : A → Bool) :
    TransitionSystem (Pair S₁ S₂) A P :=
  (besideUnpruned m₁ m₂ handshake).prune.1

/-- The reachable part of two systems side by side that do nothing together. -/
def interleave (m₁ : TransitionSystem S₁ A P) (m₂ : TransitionSystem S₂ A P) :
    TransitionSystem (Pair S₁ S₂) A P :=
  beside m₁ m₂ fun _ => false

end

end TransitionSystem

end Lasso
