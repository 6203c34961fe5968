import Lasso.Env
import Lasso.Eval.Error
import Lasso.Lang.Grammar
import Lasso.Lang.Scan
/-!
# The value of an expression

`Expr.eval` gives an expression its value in an environment, or the first cause for which it has
none. Integers wrap around at 64 bits, division goes toward zero, the connectives do not look at
their right side when the left one decides, and a name without a value has length zero: it is a
channel that nothing has been sent to.
-/

namespace Lasso

namespace Lang

/-! ## 1. Literals -/

/-- The base of an integer literal and its digits. -/
def literalDigits (cs : List Char) : Nat × List Char :=
  match Radix.ofStart cs with
  | (.hex, n) => (16, cs.drop n)
  | (.octal, n) | (.zero, n) => (8, cs.drop n)
  | (.binary, n) => (2, cs.drop n)
  | (.decimal, n) => (10, cs.drop n)

/-- The number that an integer literal spells. -/
def literalNat (s : String) : Nat :=
  let (base, ds) := literalDigits s.toList
  ds.foldl (fun acc c => if c = '_' then acc else acc * base + (hexValue? c).getD 0) 0

/-- The value of an integer literal, if it has at most 63 bits. -/
def literalInt? (s : String) : Option Int64 :=
  let n := literalNat s
  if n < Word64.limit then some (.ofNat n) else none

/-! ## 2. Operators -/

/-- The value of a unary operator. -/
def evalUnary (op : Op) (v : Value) : Except EvalError Value :=
  match op, v with
  | .not, .bool b => .ok (.bool !b)
  | .sub, .int n => .ok (.int (-n))
  | .add, .int n => .ok (.int n)
  | _, _ => .error (.badOperand op v)

/-- The value of a binary operator on integers. -/
def evalInts? (op : Op) (l r : Int64) : Option (Except EvalError Value) :=
  match op with
  | .add => some (.ok (.int (l + r)))
  | .sub => some (.ok (.int (l - r)))
  | .mul => some (.ok (.int (l * r)))
  | .quo => some (if r = 0 then .error .divisionByZero else .ok (.int (l / r)))
  | .rem => some (if r = 0 then .error .divisionByZero else .ok (.int (l % r)))
  | .lss => some (.ok (.bool (l < r)))
  | .leq => some (.ok (.bool (l ≤ r)))
  | .gtr => some (.ok (.bool (r < l)))
  | .geq => some (.ok (.bool (r ≤ l)))
  | _ => none

/-- The value of a binary operator on byte strings. -/
def evalStrings? (op : Op) (l r : Bytes) : Option Value :=
  match op with
  | .add => some (.str (l ++ r))
  | .lss => some (.bool (l.lt r))
  | .gtr => some (.bool (r.lt l))
  | _ => none

/-- The value of a binary operator that looks at both sides. -/
def evalBinary (op : Op) (l r : Value) : Except EvalError Value :=
  match op with
  | .eql => .ok (.bool (l = r))
  | .neq => .ok (.bool (l ≠ r))
  | _ =>
    match l, r with
    | .int a, .int b => (evalInts? op a b).getD (.error (.badOperands l op r))
    | .str a, .str b =>
      match evalStrings? op a b with
      | some v => .ok v
      | none => .error (.badOperands l op r)
    | _, _ => .error (.badOperands l op r)

/-- The length of a value. -/
def evalLength : Value → Except EvalError Value
  | .tuple p => .ok (.int (.ofNat (Value.unpack p).length))
  | .str s => .ok (.int (.ofNat s.length))
  | v => .error (.noLength v)

/-- The value of a name; `true` and `false` are no variables. -/
def evalName (e : Env) (n : String) : Except EvalError Value :=
  if n = "true" then .ok (.bool true)
  else if n = "false" then .ok (.bool false)
  else match e.get? n with
    | some v => .ok v
    | none => .error (.unbound n)

/-- Whether the expression is a name without a value. -/
def Expr.isUnbound (e : Env) : Expr → Bool
  | .name n => (e.get? n).isNone
  | _ => false

/-! ## 3. Expressions -/

/-- The value of an expression. -/
def Expr.eval (e : Env) : Expr → Except EvalError Value
  | .paren x => x.eval e
  | .int ds =>
    match literalInt? ds with
    | some n => .ok (.int n)
    | none => .error (.outOfRange ds)
  | .str b => .ok (.str b)
  | .name n => evalName e n
  | .unary op x => do evalUnary op (← x.eval e)
  | .binary op l r => do
    let a ← l.eval e
    if op = .land ∨ op = .lor then
      match a with
      | .bool b =>
        if b = decide (op = .lor) then return a
        let c ← r.eval e
        match c with
        | .bool _ => return c
        | _ => throw (.badOperands a op c)
      | _ => throw (.badLeft a op)
    else evalBinary op a (← r.eval e)
  | .call f arg _ =>
    match f with
    | .name "len" =>
      if arg.isUnbound e then .ok (.int 0) else do evalLength (← arg.eval e)
    | _ => .error .unsupportedCall
  | .callMany _ => .error .unsupportedCall
  | .other f => .error (.unsupported f.text)

end Lang

/-- The expression that a text spells. -/
def readExpr (text : String) : Except EvalError Lang.Expr :=
  match Lang.scanText? text.toList >>= Lang.expression? with
  | some x => .ok x
  | none => .error .malformed

/-- The value of the expression that a text spells. -/
def evalText (e : Env) (text : String) : Except EvalError Value := do
  (← readExpr text).eval e

end Lasso
