import Lasso.Proofs.System.Reach
/-!
# Systems after any changes

* `Change` -- what can be asked of a system, and `Change.leaves`, the system behind it: a change that
  is refused leaves the system as it was, a relabeling that is refused what it did up to there;
* `after` -- the system behind a list of changes, each made or refused as it comes;
* `Represents` -- how the lists and tables of a system fit together;
* `representation_after` -- **however a system is changed, its parts fit together**.
-/

namespace Lasso.TransitionSystem

variable {S A P : Type} [DecidableEq S] [Hashable S] [DecidableEq A] [Hashable A]
  [DecidableEq P] [Hashable P]

/-! ## 1. Changes -/

/-- What can be asked of a system. -/
inductive Change (S A P : Type) where
  | addState (s : S)
  | addAction (a : A)
  | addProp (p : P)
  | setInitial (s : S) (on : Bool)
  | addTransition (t : Transition S A)
  | addLabel (s : S) (p : P)
  | removeLabel (s : S) (p : P)
  | removeTransition (t : Transition S A)
  | removeState (s : S)
  | removeAction (a : A)
  | removeProp (p : P)
  | prune
  | pruneProps
  | relabel (props : List P) (label : S → List P)

/-- What a checked change leaves: its result, or the system as it was when the change is refused. -/
def leftBy (m : TransitionSystem S A P) :
    Except SystemError (TransitionSystem S A P) → TransitionSystem S A P
  | .ok m' => m'
  | .error _ => m

section Built

variable [Display S] [Display A] [Display P]

/-- The system behind a change, whether it is made or refused. -/
def Change.leaves (m : TransitionSystem S A P) : Change S A P → TransitionSystem S A P
  | .addState s => m.addState s
  | .addAction a => m.addAction a
  | .addProp p => m.addProp p
  | .setInitial s on => m.leftBy (m.setInitial s on)
  | .addTransition t => m.leftBy (m.addTransition t)
  | .addLabel s p => m.leftBy (m.addLabel s p)
  | .removeLabel s p => m.leftBy (m.removeLabel s p)
  | .removeTransition t => (m.removeTransition t).1
  | .removeState s => m.leftBy (m.removeState s)
  | .removeAction a => m.leftBy (m.removeAction a)
  | .removeProp p => m.leftBy (m.removeProp p)
  | .prune => m.prune.1
  | .pruneProps => m.pruneProps.1
  | .relabel props label => (m.relabel props label).1

/-- The system behind a list of changes. -/
def after (m : TransitionSystem S A P) (cs : List (Change S A P)) : TransitionSystem S A P :=
  cs.foldl Change.leaves m

variable {m : TransitionSystem S A P}

/-- A checked change leaves a system that is built if its result is. -/
theorem Built.leftBy (h : m.Built) {r : Except SystemError (TransitionSystem S A P)}
    (hr : ∀ m', r = .ok m' → m'.Built) : (m.leftBy r).Built := by
  cases r with
  | ok m' => exact hr m' rfl
  | error c => exact h

/-- **One change** leads from a system that is built to one that is built. -/
theorem Built.leaves (h : m.Built) (c : Change S A P) : (c.leaves m).Built := by
  cases c with
  | addState s => exact .addState m s h
  | addAction a => exact .addAction m a h
  | addProp p => exact .addProp m p h
  | setInitial s on => exact h.leftBy fun m' e => .setInitial m m' s on h e
  | addTransition t => exact h.leftBy fun m' e => .addTransition m m' t h e
  | addLabel s p => exact h.leftBy fun m' e => .addLabel m m' s p h e
  | removeLabel s p => exact h.leftBy fun m' e => .removeLabel m m' s p h e
  | removeTransition t => exact .removeTransition m t h
  | removeState s => exact h.leftBy fun m' e => .removeState m m' s h e
  | removeAction a => exact h.leftBy fun m' e => .removeAction m m' a h e
  | removeProp p => exact h.leftBy fun m' e => .removeProp m m' p h e
  | prune => exact .prune m h
  | pruneProps => exact .pruneProps m h
  | relabel props label => exact .relabel m props label h

/-- **Any changes** lead from a system that is built to one that is built. -/
theorem Built.after (h : m.Built) (cs : List (Change S A P)) : (m.after cs).Built := by
  induction cs generalizing m with
  | nil => exact h
  | cons c cs ih => exact ih (h.leaves c)

end Built

/-! ## 2. How the parts fit together -/

/-- **How the parts of a system fit together**, read off its lists and tables: nothing speaks of
    anything undeclared, each table has an entry for every state and for nothing else, the entries of
    the tables of transitions are parts of the list of all transitions, and nothing stands twice. -/
structure Represents (m : TransitionSystem S A P) : Prop where
  starts : ∀ s, s ∈ m.initial → s ∈ m.states
  ends : ∀ t, t ∈ m.transitions → t.source ∈ m.states ∧ t.target ∈ m.states ∧ t.action ∈ m.actions
  keys : ∀ s, (s ∈ m.labels ↔ s ∈ m.states) ∧ (s ∈ m.outgoing ↔ s ∈ m.states) ∧
    (s ∈ m.incoming ↔ s ∈ m.states)
  labels : ∀ (s : S) (l : Ordered P), m.labels[s]? = some l →
    l.toList.Nodup ∧ ∀ p, p ∈ l → p ∈ m.props
  outgoing : ∀ (s : S) (o : Ordered (Transition S A)), m.outgoing[s]? = some o →
    o.toList.Nodup ∧ o.toList = m.transitions.toList.filter (·.source = s)
  incoming : ∀ (s : S) (o : Ordered (Transition S A)), m.incoming[s]? = some o →
    o.toList.Nodup ∧ o.toList = m.transitions.toList.filter (·.target = s)
  nodup : m.states.toList.Nodup ∧ m.initial.toList.Nodup ∧ m.actions.toList.Nodup ∧
    m.props.toList.Nodup ∧ m.transitions.toList.Nodup

/-- Consistency says of each entry what stands in it. -/
theorem Consistent.represents {m : TransitionSystem S A P} (h : m.Consistent) : m.Represents where
  starts := h.starts
  ends := h.ends
  keys _ := ⟨h.labels.mem_iff, h.outgoing.mem_iff, h.incoming.mem_iff⟩
  labels s l hl := by
    have hentry := (h.labels.entry_of_getElem? hl).2
    exact ⟨hentry.valid.nodup, hentry.declared⟩
  outgoing s o ho := by
    have hentry := (h.outgoing.entry_of_getElem? ho).2
    exact ⟨hentry.valid.nodup, hentry.listed⟩
  incoming s o ho := by
    have hentry := (h.incoming.entry_of_getElem? ho).2
    exact ⟨hentry.valid.nodup, hentry.listed⟩
  nodup := ⟨h.states.nodup, h.initial.nodup, h.actions.nodup, h.props.nodup, h.transitions.nodup⟩

/-- **However a system is changed, its parts fit together**: whatever is asked of it and in whatever
    order, and whether it is done or refused. -/
theorem representation_after [Display S] [Display A] [Display P] (name : String)
    (cs : List (Change S A P)) : ((empty name : TransitionSystem S A P).after cs).Represents :=
  (((Built.empty name).after cs).consistent).represents

end Lasso.TransitionSystem
