import Lasso.Text.Quoted
import Lasso.Value.Encoding
/-!
# Values: kinds, texts and tuples

* `Value.text` is the text of a value: decimal integers, `true` and `false`, quoted strings, and
  tuples between angle brackets;
* tuples are built from lists, extended at the end and split at the front (`ofList`, `append`,
  `uncons?`), all on the packed form;
* a variable may have no value. `Slot` is the content of a variable, and reading a slot as a value
  of one kind fails with a `KindError` when it holds something else.
-/

namespace Lasso

namespace Value

/-! ## 1. Kinds -/

/-- The kinds of values. -/
inductive Kind where
  | int
  | bool
  | string
  | tuple
  deriving Repr, DecidableEq

/-- The word for a kind. -/
def Kind.name : Kind → String
  | .int => "int"
  | .bool => "bool"
  | .string => "string"
  | .tuple => "tuple"

/-- The kind of a value. -/
def kind : Value → Kind
  | .int _ => .int
  | .bool _ => .bool
  | .str _ => .string
  | .tuple _ => .tuple

/-! ## 2. Texts -/

/-- The text of a value. -/
def text : Value → String
  | .int n => toString n.toInt
  | .bool b => toString b
  | .str s => Text.quoteBytes s
  | .tuple p => "<" ++ ", ".intercalate ((unpack p).attach.map fun ⟨v, _⟩ => v.text) ++ ">"
termination_by v => v.weight
decreasing_by
  have := weight_of_mem_unpack ‹_ ∈ _›
  simp only [weight] at *
  omega

/-! ## 3. Tuples -/

/-- The tuple of the given elements. -/
def ofList (vs : List Value) : Value := .tuple (pack vs)

/-- The empty tuple. -/
def empty : Value := ofList []

end Value

/-! ## 4. Slots -/

/-- The content of a variable: a value, or nothing. -/
abbrev Slot := Option Value

/-- A slot that does not hold what was asked of it. -/
inductive KindError where
  /-- The slot holds no value of the kind. -/
  | notA (s : Slot) (k : Value.Kind)
  /-- A tuple or an environment was given a slot without a value. -/
  | undefined
  deriving DecidableEq

namespace Slot

/-- The text of a slot. -/
def text : Slot → String
  | none => "undefined"
  | some v => v.text

/-- The word for the kind of a slot's content. -/
def kindName : Slot → String
  | none => "invalid"
  | some v => v.kind.name

/-- The integer in a slot. -/
def asInt : Slot → Except KindError Int64
  | some (.int n) => .ok n
  | s => .error (.notA s .int)

/-- The truth value in a slot. -/
def asBool : Slot → Except KindError Bool
  | some (.bool b) => .ok b
  | s => .error (.notA s .bool)

/-- The byte string in a slot. -/
def asBytes : Slot → Except KindError Bytes
  | some (.str b) => .ok b
  | s => .error (.notA s .string)

/-- The elements of the tuple in a slot. -/
def elements : Slot → Except KindError (List Value)
  | some (.tuple p) => .ok (Value.unpack p)
  | s => .error (.notA s .tuple)

/-- The number of elements of the tuple in a slot. -/
def length (s : Slot) : Except KindError Nat := s.elements.map List.length

/-- The tuple in a slot with one more element at its end. -/
def append : Slot → Slot → Except KindError Value
  | some (.tuple p), some v => .ok (.tuple (p ++ v.encode))
  | some (.tuple _), none => .error .undefined
  | s, _ => .error (.notA s .tuple)

/-- The first element of the tuple in a slot and the tuple of the others; nothing when it is
empty. -/
def uncons? : Slot → Except KindError (Option (Value × Value))
  | some (.tuple p) => .ok ((Value.decode? p).map fun (v, rest) => (v, .tuple rest))
  | s => .error (.notA s .tuple)

/-- The value in a slot. -/
def get : Slot → Except KindError Value
  | some v => .ok v
  | none => .error .undefined

/-- The tuple of the values in the slots; each must hold one. -/
def tuple (ss : List Slot) : Except KindError Value := (ss.mapM get).map Value.ofList

end Slot

/-- The report of a kind error. -/
def KindError.message : KindError → String
  | .notA s k => "env: type error: " ++ s.text ++ " is not a " ++ k.name
  | .undefined => "env: type error: cannot encode undefined"

end Lasso
