import Lasso.Number.Double
import Lasso.Number.Word64
import Lasso.Text.Quoted
/-!
# Spans of time

A span of time is a number of nanoseconds. It is written as numbers with units, such as `1m30s`.

* `Duration.parse` reads a span of time;
* `Duration.text` writes one.
-/

namespace Lasso

/-- A number of nanoseconds. -/
structure Duration where
  nanoseconds : Int
  deriving DecidableEq, Repr, Inhabited

namespace Duration

/-! ## 1. Reading -/

/-- Why a text is no span of time. -/
inductive ParseError where
  | invalid (text : String)
  | missingUnit (text : String)
  | unknownUnit (unit text : String)
  deriving DecidableEq, Repr

/-- A text in quotes, with all bytes that are not printable ASCII in hexadecimal. -/
def quoted (s : String) : String :=
  let char (c : Char) : List Char :=
    if c.toNat ≥ 0x80 || c < ' ' then
      (Bytes.ofString (String.ofList [c])).flatMap fun b => '\\' :: 'x' :: Text.hex 2 b.toNat
    else if c = '"' || c = '\\' then ['\\', c]
    else [c]
  "\"" ++ String.ofList (s.toList.flatMap char) ++ "\""

/-- The report of a failure. -/
def ParseError.message : ParseError → String
  | .invalid s => "time: invalid duration " ++ quoted s
  | .missingUnit s => "time: missing unit in duration " ++ quoted s
  | .unknownUnit u s => "time: unknown unit " ++ quoted u ++ " in duration " ++ quoted s

/-- The nanoseconds of a unit. -/
def unit? (u : String) : Option Nat :=
  if u = "ns" then some 1
  else if u = "us" || u = "µs" || u = "μs" then some 1000
  else if u = "ms" then some 1000000
  else if u = "s" then some 1000000000
  else if u = "m" then some 60000000000
  else if u = "h" then some 3600000000000
  else none

/-- The value of digits, if it is not too large. -/
def leadingInt? (ds : List Char) : Option Nat :=
  ds.foldlM (fun n d =>
    if n > Word64.limit / 10 then none
    else
      let n := n * 10 + (d.toNat - '0'.toNat)
      if n > Word64.limit then none else some n) 0

/-- The value of the digits behind a point, and the power of ten that it is divided by. Digits that
make the value too large do not count. -/
def leadingFraction (ds : List Char) : Nat × Nat :=
  let (n, scale, _) := ds.foldl (fun (n, scale, full) d =>
    if full || n > (Word64.limit - 1) / 10 then (n, scale, true)
    else
      let m := n * 10 + (d.toNat - '0'.toNat)
      if m > Word64.limit then (n, scale, true) else (m, scale * 10, false))
    ((0, 1, false) : Nat × Nat × Bool)
  (n, scale)

/-- The nanoseconds of a fraction of a unit, computed with floating-point numbers. -/
def fractionOf (n scale unit : Nat) : Nat :=
  (((Double.ofInt n).mul (.ofRatio false unit scale)).truncate?.getD 0).toNat

/-- Whether a character is part of a number. -/
def isNumeral (c : Char) : Bool := c = '.' || c.isDigit

/-- Reads numbers with units and adds them up. -/
def parseParts (text : String) : (fuel : Nat) → Nat → List Char → Except ParseError Nat
  | 0, _, _ => .error (.invalid text)
  | _ + 1, sum, [] => .ok sum
  | fuel + 1, sum, c :: cs => do
    if !isNumeral c then throw (.invalid text)
    let whole := (c :: cs).takeWhile Char.isDigit
    let rest := (c :: cs).dropWhile Char.isDigit
    let some v := leadingInt? whole | throw (.invalid text)
    let (part, rest) := match rest with
      | '.' :: rest => (rest.takeWhile Char.isDigit, rest.dropWhile Char.isDigit)
      | rest => ([], rest)
    if whole.isEmpty && part.isEmpty then throw (.invalid text)
    let letters := rest.takeWhile fun c => !isNumeral c
    if letters.isEmpty then throw (.missingUnit text)
    let some unit := unit? (String.ofList letters)
      | throw (.unknownUnit (String.ofList letters) text)
    if v > Word64.limit / unit then throw (.invalid text)
    let (n, scale) := leadingFraction part
    let v := v * unit + (if n > 0 then fractionOf n scale unit else 0)
    if v > Word64.limit || sum + v > Word64.limit then throw (.invalid text)
    parseParts text fuel (sum + v) (rest.dropWhile fun c => !isNumeral c)

/-- Reads a span of time. -/
def parse (text : String) : Except ParseError Duration := do
  let (negative, cs) := match text.toList with
    | '-' :: cs => (true, cs)
    | '+' :: cs => (false, cs)
    | cs => (false, cs)
  if cs = ['0'] then return ⟨0⟩
  if cs.isEmpty then throw (.invalid text)
  let n ← parseParts text (cs.length + 1) 0 cs
  if negative then return ⟨-n⟩
  if n > Word64.limit - 1 then throw (.invalid text)
  return ⟨n⟩

/-! ## 2. Writing -/

/-- A number of units of which each has `Nat.pow 10 places` parts, without zeros at the end. -/
def decimal (places n : Nat) : String :=
  let part := Nat.toDigits 10 (n % Nat.pow 10 places)
  let part := List.replicate (places - part.length) '0' ++ part
  let part := (part.reverse.dropWhile (· = '0')).reverse
  toString (n / Nat.pow 10 places) ++
    if places = 0 || part.isEmpty then "" else "." ++ String.ofList part

/-- The text of a span of time: in hours, minutes and seconds, or in the largest unit that is not too
large for less than a second. -/
def text (d : Duration) : String :=
  let n := d.nanoseconds.natAbs
  let sign := if d.nanoseconds < 0 then "-" else ""
  let second := 1000000000
  if n = 0 then "0s"
  else if n < 1000 then sign ++ decimal 0 n ++ "ns"
  else if n < 1000000 then sign ++ decimal 3 n ++ "µs"
  else if n < second then sign ++ decimal 6 n ++ "ms"
  else
    let minutes := n / (60 * second)
    let hours := minutes / 60
    sign ++ (if hours > 0 then toString hours ++ "h" else "") ++
      (if minutes > 0 then toString (minutes % 60) ++ "m" else "") ++
      decimal 9 (n % (60 * second)) ++ "s"

end Duration

end Lasso
