import Lasso.Number.Double
import Lasso.Number.Word64
import Lasso.Yaml.Timestamp
/-!
# What scalars mean

A plain scalar without a tag means a truth value, a number, a point in time or nothing at all if it
is spelled like one, and otherwise its own text. A tag asks for one of these, or for the text.

* `Meaning` is what a scalar can mean, and `Meaning.tag` the tag that goes with it;
* `meaning` reads a text, and `resolve?` a text with a tag.
-/

namespace Lasso.Yaml

/-! ## 1. Meanings -/

inductive Meaning where
  | null
  | bool (b : Bool)
  | int (n : Int)
  | float (x : Double)
  | time
  | text (s : String)
  deriving DecidableEq, Repr

/-- The tag of a meaning. -/
def Meaning.tag : Meaning → String
  | .null => "!!null"
  | .bool _ => "!!bool"
  | .int _ => "!!int"
  | .float _ => "!!float"
  | .time => "!!timestamp"
  | .text _ => "!!str"

/-- The words that mean something else than their text. -/
def word? (text : String) : Option Meaning :=
  if ["true", "True", "TRUE"].contains text then some (.bool true)
  else if ["false", "False", "FALSE"].contains text then some (.bool false)
  else if ["", "~", "null", "Null", "NULL"].contains text then some .null
  else if [".nan", ".NaN", ".NAN"].contains text then some (.float .nan)
  else if [".inf", ".Inf", ".INF", "+.inf", "+.Inf", "+.INF"].contains text then
    some (.float (.infinite false))
  else if ["-.inf", "-.Inf", "-.INF"].contains text then some (.float (.infinite true))
  else none

/-! ## 2. Whole numbers -/

/-- The value of a digit in any base up to 16. -/
def digit? (c : Char) : Option Nat :=
  if c.isDigit then some (c.toNat - '0'.toNat)
  else if 'a' ≤ c && c ≤ 'f' then some (c.toNat - 'a'.toNat + 10)
  else if 'A' ≤ c && c ≤ 'F' then some (c.toNat - 'A'.toNat + 10)
  else none

/-- Reads digits in a base; the text may be empty. -/
def digits? (base : Nat) (cs : List Char) : Option Nat :=
  cs.foldlM (fun n c => do
    let d ← digit? c
    if d < base then some (n * base + d) else none) 0

/-- Reads digits whose first characters tell the base. -/
def natural? : List Char → Option Nat
  | [] => none
  | '0' :: m :: d :: rest =>
    if m = 'b' || m = 'B' then digits? 2 (d :: rest)
    else if m = 'o' || m = 'O' then digits? 8 (d :: rest)
    else if m = 'x' || m = 'X' then digits? 16 (d :: rest)
    else digits? 8 (m :: d :: rest)
  | '0' :: rest => digits? 8 rest
  | cs => digits? 10 cs

/-- Splits the sign from a text. -/
def splitSign : List Char → Bool × Bool × List Char
  | '+' :: rest => (true, false, rest)
  | '-' :: rest => (true, true, rest)
  | cs => (false, false, cs)

/-- The number with a sign, if it fits: numbers with a sign have 64 bits with it, others without. -/
def fit? (signed negative : Bool) (n : Nat) : Option Int :=
  if negative then (if n ≤ Word64.limit then some (-n) else none)
  else if n < Word64.limit then some n
  else if !signed && n < Word64.count then some n
  else none

/-- Reads a whole number. -/
def whole? (cs : List Char) : Option Int := do
  let (signed, negative, ds) := splitSign cs
  fit? signed negative (← natural? ds)

/-- Reads a whole number in base 2 or 8 whose sign stands behind the mark of the base. -/
def innerSigned? : List Char → Option Int
  | '0' :: m :: s :: d :: rest =>
    if (m = 'b' || m = 'o') && (s = '+' || s = '-') then do
      fit? true (s = '-') (← digits? (if m = 'b' then 2 else 8) (d :: rest))
    else none
  | _ => none

/-! ## 3. Other numbers -/

/-- A decimal number in parts: the digits before and behind the point, and the exponent. -/
structure Decimal where
  negative : Bool
  whole : List Char
  part : List Char
  exponent : Int

/-- Reads the exponent of a number at the end of a text. -/
def exponent? : List Char → Option Int
  | [] => some 0
  | e :: rest =>
    if e = 'e' || e = 'E' then
      let (_, negative, ds) := splitSign rest
      if !ds.isEmpty && ds.all Char.isDigit then
        (digits? 10 ds).map fun n => if negative then -n else n
      else none
    else none

/-- Reads a decimal number. Digits stand before or behind the point. -/
def decimal? (cs : List Char) : Option Decimal := do
  let (_, negative, cs) := splitSign cs
  let whole := cs.takeWhile Char.isDigit
  let rest := cs.dropWhile Char.isDigit
  let (part, rest) := match rest with
    | '.' :: rest => (rest.takeWhile Char.isDigit, rest.dropWhile Char.isDigit)
    | rest => ([], rest)
  if whole.isEmpty && part.isEmpty then none
  return ⟨negative, whole, part, ← exponent? rest⟩

/-- The nearest number, if a finite one is near. -/
def Decimal.double? (d : Decimal) : Option Double := do
  let n ← digits? 10 (d.whole ++ d.part)
  match Double.ofDecimal d.negative n (d.exponent - d.part.length) with
  | .infinite _ => none
  | x => some x

/-- Removes the underscores that stand between digits; others are refused. -/
def joinDigits : List Char → Option (List Char)
  | [] => some []
  | '_' :: _ => none
  | a :: '_' :: b :: rest =>
    if a.isDigit && b.isDigit then do return a :: (← joinDigits (b :: rest)) else none
  | a :: rest => do return a :: (← joinDigits rest)

/-- Reads a decimal number. -/
def float? (cs : List Char) : Option Meaning := do
  return .float (← (← decimal? cs).double?)

/-! ## 4. Reading -/

/-- What a plain text means if points in time count or do not. -/
def meaningWith (times : Bool) (text : String) : Meaning :=
  match text.toList with
  | [] => .null
  | c :: cs =>
    if c = '.' then
      ((word? text).or ((joinDigits (c :: cs)).bind float?)).getD (.text text)
    else if c.isDigit || c = '+' || c = '-' then
      let plain := (c :: cs).filter (· ≠ '_')
      let number? := ((whole? plain).map Meaning.int).or <|
        (float? plain).or ((innerSigned? plain).map Meaning.int)
      ((word? text).or <| (if times && isTimestamp text then some .time else none).or number?).getD
        (.text text)
    else if "yYnNtTfFoO~".toList.contains c then (word? text).getD (.text text)
    else .text text

/-- What a plain text means. -/
def meaning (text : String) : Meaning := meaningWith true text

/-- The tags that ask for a meaning; others leave the text as it is. -/
def isMeaningTag (tag : String) : Bool :=
  ["!!bool", "!!int", "!!float", "!!null", "!!timestamp"].contains tag

/-- What a text with a tag means; nothing if the text is not spelled like what the tag asks for. -/
def resolve? (tag text : String) : Option Meaning :=
  if !isMeaningTag tag then some (.text text)
  else
    match meaningWith (tag = "!!timestamp") text with
    | .int n =>
      if tag = "!!int" then some (.int n)
      else if tag = "!!float" && n < (Word64.limit : Int) then some (.float (.ofInt n))
      else none
    | m => if m.tag = tag then some m else none

end Lasso.Yaml
