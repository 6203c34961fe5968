import Lasso.Eval.Expression
import Lasso.Pair
import Lasso.System.Basic
/-!
# Unfolding a circuit

A sequential circuit has inputs, registers and outputs that are on or off. Its states are the values
of inputs and registers. The registers start off while the first inputs are arbitrary; each step
sets the registers as the circuit says and reads new inputs. A state is labeled with the names of
the inputs, registers and outputs that are on.
-/

namespace Lasso

/-- A circuit: its ports, and what its registers and outputs become, both for given inputs and
registers. -/
structure Circuit (ε : Type) where
  inputs : List String
  registers : List String
  outputs : List String
  update : Env → Env → Except ε Env
  compute : Env → Env → Except ε Env

/-- Why the unfolding of a circuit fails. -/
inductive CircuitError (ε : Type) where
  /-- The circuit cannot tell what a register or an output becomes. -/
  | evaluation (cause : ε)
  /-- Something is on that is no port of the circuit. -/
  | system (cause : SystemError)
  /-- There are more states than any machine can hold. -/
  | endless

namespace Circuit

section

variable {ε : Type}

/-- A state of a circuit: the values of its inputs and of its registers. -/
abbrev State := Pair Env Env

/-- The transition system of a circuit. -/
abbrev System := TransitionSystem State Env String

/-- The `i`th way to put names on and off: the bits of `i` tell which are on. Of two places of a name
the later one counts. -/
def assignment (names : List String) (i : Nat) : Env :=
  .ofList (names.zipIdx.map fun (name, j) => (name, .bool (i.testBit j)))

/-- The number of ways to put names on and off, as a word of 64 bits counts them: of the power of two
nothing is left from 64 names on. -/
def ways (names : List String) : Nat := (1#64 <<< names.length).toNat

/-- The greatest number of environments that there is room for at once: sixteen bytes for each, out of
the 48th power of two. -/
def mostAssignments : Nat := 17592186044416

/-- All ways to put names on and off that are counted, if there is room for them. The first name changes
fastest. -/
def assignments (names : List String) : Except (CircuitError ε) (List Env) :=
  if mostAssignments < ways names then .error .endless
  else .ok ((List.range (ways names)).map (assignment names))

/-- A system that is being built, with the states whose steps are not followed yet. -/
structure Unfolding where
  system : System
  waiting : List State := []

/-- Enters a state unless it is known. -/
def discover (u : Unfolding) (t : State) : Unfolding :=
  if u.system.states.contains t then u else ⟨u.system.addState t, t :: u.waiting⟩

/-- Follows the step from a state to given registers with some inputs. -/
def followInputs (s : State) (registers : Env) (u : Unfolding) (inputs : Env) :
    Except (CircuitError ε) Unfolding := do
  let u := discover u ⟨inputs, registers⟩
  let system ← (u.system.addTransition ⟨s, inputs, ⟨inputs, registers⟩⟩).mapError .system
  return ⟨system, u.waiting⟩

/-- Follows the steps from a state. -/
def followState (c : Circuit ε) (inputs : List Env) (s : State) (u : Unfolding) :
    Except (CircuitError ε) Unfolding := do
  let registers ← (c.update s.first s.second).mapError .evaluation
  inputs.foldlM (followInputs s registers) u

/-- Follows the steps from all waiting states and from those they lead to; nothing when that has no
end. -/
def followAll? (c : Circuit ε) (inputs : List Env) (u : Unfolding) :
    Option (Except (CircuitError ε) System) :=
  match u.waiting with
  | [] => some (.ok u.system)
  | s :: rest =>
    match c.followState inputs s ⟨u.system, rest⟩ with
    | .error e => some (.error e)
    | .ok u => c |>.followAll? inputs u
partial_fixpoint

/-- The names that are on. -/
def namesOn (e : Env) : List String :=
  (e.entries.filter (·.2 = .bool true)).map (·.1)

/-- Labels a state with the names that are on in it. -/
def labelState (c : Circuit ε) (m : System) (s : State) : Except (CircuitError ε) System := do
  let outputs ← (c.compute s.first s.second).mapError .evaluation
  [s.first, s.second, outputs].flatMap namesOn |>.foldlM
    (fun m p => (m.addLabel s p).mapError .system) m

/-- Enters an initial state. -/
def addStart (m : System) (s : State) : Except (CircuitError ε) System :=
  ((m.addState s).setInitial s true).mapError .system

/-- The transition system of a circuit. -/
def unfold (c : Circuit ε) : Except (CircuitError ε) System := do
  let inputs ← assignments c.inputs
  let cleared : Env := .ofList (c.registers.map (·, .bool false))
  let starts : List State := inputs.map fun i => ⟨i, cleared⟩
  let system ← starts.foldlM addStart (((TransitionSystem.empty "circuit").addProps
    (c.inputs ++ c.registers ++ c.outputs)).addActions inputs)
  let system ← (c.followAll? inputs ⟨system, starts.reverse⟩).getD (.error .endless)
  system.states.toList.foldlM c.labelState system

end

/-- The values that definitions `name = expression` give to their names, for given inputs and
registers. A register hides an input of the same name. -/
def define (defs : List (String × String)) (inputs registers : Env) : Except EvalError Env := do
  let e := registers.entries.foldl (fun e (name, v) => e.set name v) inputs
  defs.foldlM (fun d (name, expr) => do return d.set name (← evalText e expr)) ∅

/-- The circuit whose registers and outputs are given by definitions. -/
def ofDefinitions (inputs registers outputs : List String) (update compute : List (String × String)) :
    Circuit EvalError where
  inputs := inputs
  registers := registers
  outputs := outputs
  update := define update
  compute := define compute

end Circuit

end Lasso
