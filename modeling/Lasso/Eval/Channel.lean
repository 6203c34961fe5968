import Lasso.Eval.Expression
import Lasso.Text.Blank
/-!
# Channel actions

`c!e` sends the value of `e` into the channel `c`, and `c?x` receives the oldest value of `c` into
the variable `x`. A channel is a variable that holds a tuple; one without a value is empty.
Receiving from an empty channel is blocked, and so is sending into a channel that is full.

The first section reads such actions; rendezvous actions have the same shape and are read with it
(`Lasso.Eval.Handshake`).
-/

namespace Lasso

/-! ## 1. The shape of a channel action -/

/-- A character inside a channel's or a variable's name. -/
def isWordChar (c : Char) : Bool := c.isAlphanum || c = '_'

/-- Splits `name mark rest`, with spaces around the name. -/
def splitAction? (mark : Char) (isName : List Char → Bool) (cs : List Char) :
    Option (List Char × List Char) :=
  let cs := cs.dropWhile Text.isSpace
  let name := cs.takeWhile isWordChar
  match (cs.dropWhile isWordChar).dropWhile Text.isSpace with
  | c :: rest => if c = mark ∧ isName name then some (name, rest) else none
  | [] => none

/-- What is sent: everything behind the mark but the spaces around it, all of `allowed` characters.
If there is nothing but spaces, the last of them that is allowed is what is sent. -/
def payload? (allowed : Char → Bool) (cs : List Char) : Option (List Char) :=
  match cs.dropWhile Text.isSpace with
  | [] => (cs.reverse.find? allowed).map ([·])
  | body =>
    let body := Text.trimEnd Text.isSpace body
    if body.all allowed then some body else none

/-- A name that starts with an ASCII letter: that of a variable or of a channel. -/
def isVariableName : List Char → Bool
  | c :: _ => c.isAlpha
  | [] => false

/-- What is received into: a variable's name with spaces around it. -/
def receiver? (cs : List Char) : Option (List Char) :=
  let name := Text.trimEnd Text.isSpace (cs.dropWhile Text.isSpace)
  if isVariableName name ∧ name.all isWordChar then some name else none

/-- An action on a channel. -/
inductive ChannelAction where
  | send (channel : String) (payload : String)
  | receive (channel : String) (target : String)
  deriving DecidableEq, Repr

/-- Reads a sending action whose channel name and payload are as described. -/
def readSend? (isName : List Char → Bool) (allowed : Char → Bool) (action : String) :
    Option (String × String) := do
  let (name, rest) ← splitAction? '!' isName action.toList
  let body ← payload? allowed rest
  return (.ofList name, .ofList body)

/-- Reads a receiving action whose channel name is as described. -/
def readReceive? (isName : List Char → Bool) (action : String) : Option (String × String) := do
  let (name, rest) ← splitAction? '?' isName action.toList
  let x ← receiver? rest
  return (.ofList name, .ofList x)

namespace ChannelAction

/-- Reads a channel action; what is sent stands on one line. -/
def read? (action : String) : Option ChannelAction :=
  match readReceive? isVariableName action with
  | some (c, x) => some (.receive c x)
  | none => (readSend? isVariableName (· ≠ '\n') action).map fun (c, s) => .send c s

/-- Whether an action is a channel action. -/
def matches? (action : String) : Bool := (read? action).isSome

/-! ## 2. Effect -/

/-- The packed elements of the channel in a variable. -/
def buffer (e : Env) (channel : String) : Except EvalError Bytes :=
  match e.get? channel with
  | none => .ok []
  | some (.tuple p) => .ok p
  | some _ => .error (.notChannel channel)

/-- Whether a channel of this capacity can take no more; a capacity that is not positive is no
bound. -/
def isFull (capacity : Int) (packed : Bytes) : Bool :=
  0 < capacity && capacity ≤ (Value.unpack packed).length

/-- The environment after a channel action; nothing when it is blocked. -/
def run (capacity : Int) (e : Env) : ChannelAction → Except EvalError (Option Env)
  | .receive c x => do
    match Value.decode? (← buffer e c) with
    | none => return none
    | some (v, rest) => return some ((e.set c (.tuple rest)).set x v)
  | .send c payload => do
    let p ← buffer e c
    if isFull capacity p then return none
    let v ← evalText e payload
    return some (e.set c (.tuple (p ++ v.encode)))

/-- The environment after an action; nothing when it is blocked. -/
def effect (capacity : Int) (e : Env) (action : String) : Except EvalError (Option Env) :=
  match read? action with
  | some a => a.run capacity e
  | none => .error (.notChannelAction action)

end ChannelAction

end Lasso
