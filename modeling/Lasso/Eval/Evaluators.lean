import Lasso.Eval.Assignment
import Lasso.Eval.Handshake
/-!
# Evaluators

How the conditions and actions of programs are given meaning. Evaluators list the families of
conditions and of actions that are known. A condition holds if some family accepts it; an action is
taken by the first family that matches it, and one that no family matches has no effect.
-/

namespace Lasso

/-! ## 1. Families -/

/-- A family of conditions. -/
inductive ConditionFamily where
  /-- Expressions with a truth value. -/
  | expressions
  /-- Conditions of another kind. -/
  | other (name : String) (holds : Env → String → Except EvalError Bool)

namespace ConditionFamily

/-- Whether a condition holds. -/
def holds (e : Env) (cond : String) : ConditionFamily → Except EvalError Bool
  | .expressions => do
    match ← evalText e cond with
    | .bool b => return b
    | v => throw (.notTruth v)
  | .other _ holds => holds e cond

/-- The name of a family. -/
def name : ConditionFamily → String
  | .expressions => "eval.Expressions"
  | .other name _ => name

end ConditionFamily

/-- A family of actions. -/
inductive ActionFamily where
  | handshake
  /-- Channels that hold up to `capacity` values; without bound when it is not positive. -/
  | channels (capacity : Int)
  | assignments
  /-- Actions of another kind. -/
  | other (name : String) (matches? : String → Bool)
      (effect : Env → String → Except EvalError (Option Env))

namespace ActionFamily

/-- Whether the family knows the action. -/
def matches? (action : String) : ActionFamily → Bool
  | .handshake => Handshake.matches? action
  | .channels _ => ChannelAction.matches? action
  | .assignments => Assignment.matches? action
  | .other _ known _ => known action

/-- The environment after an action; nothing when it is blocked. -/
def effect (e : Env) (action : String) : ActionFamily → Except EvalError (Option Env)
  | .handshake => Handshake.effect e action
  | .channels n => ChannelAction.effect n e action
  | .assignments => (Assignment.effect e action).map some
  | .other _ _ effect => effect e action

/-- The name of a family. -/
def name : ActionFamily → String
  | .handshake => "eval.Handshake"
  | .channels _ => "eval.Channels"
  | .assignments => "eval.Assignments"
  | .other name _ _ => name

end ActionFamily

/-! ## 2. Evaluators -/

/-- The families that are known, in the order in which they are asked. -/
structure Evaluators where
  conditions : List ConditionFamily := [.expressions]
  actions : List ActionFamily := [.handshake, .channels 0, .assignments]

namespace Evaluators

instance : Inhabited Evaluators := ⟨{}⟩

/-- Whether a condition holds: a blank one always does. -/
def holds (ev : Evaluators) (e : Env) (cond : String) : Except EvalError Bool :=
  if cond.toList.all Text.isBlank then .ok true
  else
    (go ev.conditions).mapError (.inCondition cond)
where
  go : List ConditionFamily → Except EvalError Bool
    | [] => .ok false
    | f :: rest => do
      if ← f.holds e cond then return true
      go rest

/-- The family that takes an action. -/
def family? (ev : Evaluators) (action : String) : Option ActionFamily :=
  ev.actions.find? (·.matches? action)

/-- The environment after an action; nothing when it is blocked. -/
def effect (ev : Evaluators) (e : Env) (action : String) : Except EvalError (Option Env) :=
  match ev.family? action with
  | none => .ok (some e)
  | some f => (f.effect e action).mapError (.inAction action)

/-- The environment after one statement of an initialization. -/
def initStep (ev : Evaluators) (e : Env) (stmt : String) : Except EvalError Env :=
  match ev.family? stmt with
  | none => .ok e
  | some f =>
    match f.effect e stmt with
    | .error c => .error (.inInitialization stmt c)
    | .ok none => .error (.blocked stmt)
    | .ok (some e) => .ok e

/-- The environment that the statements of an initialization lead to. -/
def initial (ev : Evaluators) (stmts : List String) : Except EvalError Env :=
  stmts.foldlM ev.initStep ∅

end Evaluators

end Lasso
