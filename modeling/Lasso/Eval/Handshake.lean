import Lasso.Eval.Channel
/-!
# Rendezvous

The names of rendezvous channels start with an underscore. A lone `_c!e` or `_c?x` is one-sided: it
can only happen together with its counterpart in another program, as the combined action
`_c!e|_c?x`, which gives `x` the value of `e`. On its own a one-sided action is always blocked.

This file also says which actions of two programs synchronise (`Handshake.agree`), what they become
(`combine`) and what guards them (`conjoin`).
-/

namespace Lasso

namespace Handshake

/-- The name of a rendezvous channel: an underscore and at least one more character. -/
def isChannelName : List Char → Bool
  | c :: _ :: _ => c = '_'
  | _ => false

/-- Reads a sending end; what is sent holds no bar. -/
def readSend? (action : String) : Option (String × String) :=
  Lasso.readSend? isChannelName (· ≠ '|') action

/-- Reads a receiving end. -/
def readReceive? (action : String) : Option (String × String) :=
  Lasso.readReceive? isChannelName action

/-- Whether an action is one end of a rendezvous. -/
def isOneSided (action : String) : Bool :=
  (readSend? action).isSome || (readReceive? action).isSome

/-- The two ends of a combined action, cut at its first bar: what is sent, and what is received
into. The ends may stand in either order. -/
def split? (action : String) : Option (String × String) := do
  let cs := action.toList
  let left := cs.takeWhile (· ≠ '|')
  match cs.dropWhile (· ≠ '|') with
  | [] => none
  | _ :: right =>
    let (l, r) := (String.ofList left, String.ofList right)
    let (s, t) := if (readReceive? l).isSome then (r, l) else (l, r)
    let (c, payload) ← readSend? s
    let (d, target) ← readReceive? t
    if c = d then some (payload, target) else none

/-- One action of both ends. -/
def combine (a₁ a₂ : String) : String := a₁ ++ "|" ++ a₂

/-- Whether two actions are the two ends of one channel. -/
def agree (a₁ a₂ : String) : Bool := (split? (combine a₁ a₂)).isSome

/-- The guard of two synchronising transitions. -/
def conjoin (c₁ c₂ : String) : String :=
  let c₁ := Text.trim c₁
  let c₂ := Text.trim c₂
  if c₁ = "" then c₂ else if c₂ = "" then c₁ else "(" ++ c₁ ++ ") && (" ++ c₂ ++ ")"

/-- Whether an action is a rendezvous or one end of it. -/
def matches? (action : String) : Bool := isOneSided action || (split? action).isSome

/-- The environment after an action; nothing when it is blocked. -/
def effect (e : Env) (action : String) : Except EvalError (Option Env) := do
  if isOneSided action then return none
  match split? action with
  | none => throw (.notHandshake action)
  | some (payload, target) => return some (e.set target (← evalText e payload))

end Handshake

end Lasso
