import Lasso.Automaton.Basic
/-!
# Automata of common shapes

Each automaton accepts the runs that show a behaviour. Its states are `q0`, which is initial, and
`q1`.
-/

namespace Lasso.Automaton

section

variable {P : Type}

/-- Accepts the runs on which the guard accepts some label. -/
def eventually (phi : Guard P) : Automaton String P where
  states := .ofList ["q0", "q1"]
  initial := .ofList ["q0"]
  accepting := .ofList ["q1"]
  edges := #[⟨"q0", .not phi, "q0"⟩, ⟨"q0", phi, "q1"⟩, ⟨"q1", .always, "q1"⟩]

/-- Accepts the runs on which the first guard accepts some label and the second one every label
behind it. -/
def eventuallyThenAlways (phi psi : Guard P) : Automaton String P where
  states := .ofList ["q0", "q1"]
  initial := .ofList ["q0"]
  accepting := .ofList ["q1"]
  edges := #[⟨"q0", .always, "q0"⟩, ⟨"q0", phi, "q1"⟩, ⟨"q1", psi, "q1"⟩]

/-- Accepts the runs on which the guard accepts infinitely many labels. -/
def infinitelyOften (phi : Guard P) : Automaton String P where
  states := .ofList ["q0", "q1"]
  initial := .ofList ["q0"]
  accepting := .ofList ["q1"]
  edges := #[⟨"q0", .not phi, "q0"⟩, ⟨"q0", phi, "q1"⟩, ⟨"q1", .not phi, "q0"⟩, ⟨"q1", phi, "q1"⟩]

/-- Accepts the runs on which the guard accepts no label. -/
def never (phi : Guard P) : Automaton String P where
  states := .ofList ["q0"]
  initial := .ofList ["q0"]
  accepting := .ofList ["q0"]
  edges := #[⟨"q0", .not phi, "q0"⟩]

end

end Lasso.Automaton
