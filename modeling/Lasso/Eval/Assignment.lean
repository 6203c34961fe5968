import Lasso.Eval.Expression
import Lasso.Text.Blank
/-!
# Assignments

An action may be a sequence of assignments, such as `x := x + 1; y := 0`, optionally inside
`atomic` with brackets around it. The statements happen in order, each one seeing what those before
it did; an assignment to several variables looks at all its right sides first. Assignments never
block.

The text of an action stands for the body of a function. A closing bracket in it ends that body, and
what follows must then be declarations, which have no effect.
-/

namespace Lasso

open Lang (Expr Stmt Op)

/-- One step of a sequence of assignments. -/
inductive Assignment where
  /-- Gives each variable the value of the expression at the same place. -/
  | set (targets : List String) (values : List Expr)
  | increment (name : String)
  | decrement (name : String)
  deriving DecidableEq

namespace Assignment

/-! ## 1. Reading -/

/-- The text between the brackets of an atomic action. -/
def atomicBody? (cs : List Char) : Option (List Char) :=
  let cs := cs.dropWhile Text.isSpace
  if "atomic".toList.isPrefixOf cs then
    match (cs.drop 6).dropWhile Text.isSpace with
    | '{' :: rest =>
      let rest := Text.trimEnd Text.isSpace rest
      if rest.getLast? = some '}' ∧ ¬ rest.dropLast.any (· = '\n') then some rest.dropLast else none
    | _ => none
  else none

/-- The name that an assignment's target is. -/
def target : Expr → Except EvalError String
  | .name n => .ok n
  | x => .error (.notAssignable x.formText)

/-- The step that a statement is; an empty statement is none. -/
def ofStmt (action : String) : Stmt → Except EvalError (Option Assignment)
  | .empty => .ok none
  | .assign lhs op rhs => do
    if (op ≠ .define ∧ op ≠ .assign) ∨ lhs.length ≠ rhs.length then
      throw (.unsupportedAssignment action)
    return some (.set (← lhs.mapM target) rhs)
  | .increment x => do return some (.increment (← target x))
  | .decrement x => do return some (.decrement (← target x))
  | .expr _ | .labeled | .other => .error (.notAssignment action)

/-- The steps of an action. -/
def readAll (action : String) : Except EvalError (List Assignment) := do
  let body := (atomicBody? action.toList).getD action.toList
  if body.all Text.isBlank then throw .emptyAction
  match Lang.scan? (body ++ "\n\x7d".toList) >>= Lang.statements? with
  | none => throw .malformed
  | some ss =>
    let steps := (← ss.mapM (ofStmt action)).filterMap id
    if steps.isEmpty then throw .emptyAction
    return steps

/-- Whether an action is a sequence of assignments. -/
def matches? (action : String) : Bool := (readAll action).isOk

/-! ## 2. Effect -/

/-- Counts a variable up or down. -/
def count (e : Env) (name : String) (op : Op) (by_ : Int64) : Except EvalError Env :=
  match e.get? name with
  | none => .error (.unbound name)
  | some (.int n) => .ok (e.set name (.int (n + by_)))
  | some _ => .error (.notCounter name op)

/-- The environment after a step. -/
def run (e : Env) : Assignment → Except EvalError Env
  | .set targets values => do
    let vs ← values.mapM (·.eval e)
    return (targets.zip vs).foldl (fun e (n, v) => e.set n v) e
  | .increment n => count e n .inc 1
  | .decrement n => count e n .dec (-1)

/-- The environment after an action. -/
def effect (e : Env) (action : String) : Except EvalError Env := do
  (← readAll action).foldlM run e

end Assignment

end Lasso
