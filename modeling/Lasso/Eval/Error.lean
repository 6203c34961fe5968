import Lasso.Lang.Expr
import Lasso.Value.Basic
/-!
# What can go wrong in conditions and actions

The causes for which an expression, a condition or an action has no result, and their reports. A
cause is of one of four kinds: the text is not of the grammar or of the part of it that has a
meaning, a variable has no value, values do not fit an operator, or an initialization is blocked.
-/

namespace Lasso

open Lang (Op)

/-- A cause for which a condition or an action has no result. -/
inductive EvalError where
  /-- The text does not follow the grammar. -/
  | malformed
  /-- An integer literal of more than 63 bits. -/
  | outOfRange (digits : String)
  /-- An expression of a form that has no value. -/
  | unsupported (form : String)
  /-- A call of something else than the length of one thing. -/
  | unsupportedCall
  /-- An action without statements. -/
  | emptyAction
  | notAssignment (action : String)
  | unsupportedAssignment (action : String)
  /-- The form of something that is no variable but is assigned to. -/
  | notAssignable (form : String)
  | notChannelAction (action : String)
  | notHandshake (action : String)
  | unbound (name : String)
  | badOperand (op : Op) (v : Value)
  | badOperands (l : Value) (op : Op) (r : Value)
  /-- The left side of a connective is no truth value. -/
  | badLeft (l : Value) (op : Op)
  | divisionByZero
  | noLength (v : Value)
  /-- The value of a condition is no truth value. -/
  | notTruth (v : Value)
  | notChannel (name : String)
  /-- The variable to be counted up or down holds no integer. -/
  | notCounter (name : String) (op : Op)
  /-- The initialization cannot happen in the environment so far. -/
  | blocked (stmt : String)
  | inCondition (cond : String) (cause : EvalError)
  | inAction (action : String) (cause : EvalError)
  | inInitialization (stmt : String) (cause : EvalError)
  deriving DecidableEq

namespace EvalError

/-- The kinds of causes. -/
inductive Kind where
  | grammar
  | unbound
  | type
  | blocked
  deriving DecidableEq, Repr

/-- The kind of a cause. -/
def kind : EvalError → Kind
  | .malformed | .outOfRange _ | .unsupported _ | .unsupportedCall | .emptyAction
  | .notAssignment _ | .unsupportedAssignment _ | .notAssignable _ | .notChannelAction _
  | .notHandshake _ => .grammar
  | .unbound _ => .unbound
  | .badOperand _ _ | .badOperands _ _ _ | .badLeft _ _ | .divisionByZero | .noLength _
  | .notTruth _ | .notChannel _ | .notCounter _ _ => .type
  | .blocked _ => .blocked
  | .inCondition _ c | .inAction _ c | .inInitialization _ c => c.kind

/-- How the reports of a kind start. -/
def Kind.text : Kind → String
  | .grammar => "eval: syntax error"
  | .unbound => "eval: unbound variable"
  | .type => "eval: type error"
  | .blocked => "eval: initialization is blocked"

/-- What a report says behind the kind. -/
def detail : EvalError → String
  | .malformed => "go/parser"
  | .outOfRange ds => "strconv.ParseInt: parsing " ++ Text.quote ds ++ ": value out of range"
  | .unsupported f => "unsupported expression " ++ f
  | .unsupportedCall => "unsupported call"
  | .emptyAction => "empty action"
  | .notAssignment a => Text.quote a ++ " is not an assignment"
  | .unsupportedAssignment a => "unsupported assignment in " ++ Text.quote a
  | .notAssignable f => "cannot assign to " ++ f
  | .notChannelAction a => Text.quote a ++ " is not a channel action"
  | .notHandshake a => Text.quote a ++ " is not a handshake"
  | .unbound n => n
  | .badOperand op v => op.text ++ v.text
  | .badOperands l op r => l.text ++ " " ++ op.text ++ " " ++ r.text
  | .badLeft l op => l.text ++ " " ++ op.text ++ " ..."
  | .divisionByZero => "division by zero"
  | .noLength v => "len(" ++ v.text ++ ")"
  | .notTruth v => "condition evaluates to " ++ v.text
  | .notChannel n => n ++ " is not a channel"
  | .notCounter n op => n ++ op.text
  | .blocked s => Text.quote s
  | .inCondition _ c | .inAction _ c | .inInitialization _ c => c.detail

/-- The report of a cause. -/
def message : EvalError → String
  | .inCondition s c => "condition " ++ Text.quote s ++ ": " ++ c.message
  | .inAction s c => "action " ++ Text.quote s ++ ": " ++ c.message
  | .inInitialization s c => "initialization " ++ Text.quote s ++ ": " ++ c.message
  | e => e.kind.text ++ ": " ++ e.detail

end EvalError

end Lasso
