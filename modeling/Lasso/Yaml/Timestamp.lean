/-!
# Points in time

A point in time is written as a date, or as a date and a time of day. The year has four digits, the
other numbers one or two. After a `T` or `t` the zone must be given, after blanks it must not.

Main definition: `isTimestamp`.
-/

namespace Lasso.Yaml

/-- Reads a number of one or two digits. -/
def shortNumber? : List Char → Option (Nat × List Char)
  | a :: b :: rest =>
    if !a.isDigit then none
    else if b.isDigit then
      some ((a.toNat - '0'.toNat) * 10 + (b.toNat - '0'.toNat), rest)
    else some (a.toNat - '0'.toNat, b :: rest)
  | [a] => if a.isDigit then some (a.toNat - '0'.toNat, []) else none
  | [] => none

/-- Reads a certain character. -/
def char? (c : Char) : List Char → Option (List Char)
  | a :: rest => if a = c then some rest else none
  | [] => none

def isLeapYear (year : Nat) : Bool := year % 4 = 0 && (year % 100 ≠ 0 || year % 400 = 0)

/-- The number of days in a month of a year. -/
def daysIn (year month : Nat) : Nat :=
  if month = 2 then (if isLeapYear year then 29 else 28)
  else if month = 4 || month = 6 || month = 9 || month = 11 then 30
  else 31

/-- Reads a date. -/
def date? (cs : List Char) : Option (List Char) := do
  let year := cs.takeWhile Char.isDigit
  if year.length ≠ 4 then none
  let rest ← char? '-' (cs.drop 4)
  let (month, rest) ← shortNumber? rest
  if month < 1 || 12 < month then none
  let rest ← char? '-' rest
  let (day, rest) ← shortNumber? rest
  let n := year.foldl (fun n d => n * 10 + (d.toNat - '0'.toNat)) 0
  if day < 1 || daysIn n month < day then none
  return rest

/-- Reads the parts of a second, if there are any. -/
def fraction : List Char → List Char
  | p :: d :: rest =>
    if (p = '.' || p = ',') && d.isDigit then rest.dropWhile Char.isDigit else p :: d :: rest
  | cs => cs

/-- Reads a time of day. -/
def time? (cs : List Char) : Option (List Char) := do
  let (hour, rest) ← shortNumber? cs
  if 24 ≤ hour then none
  let (minute, rest) ← shortNumber? (← char? ':' rest)
  if 60 ≤ minute then none
  let (second, rest) ← shortNumber? (← char? ':' rest)
  if 60 ≤ second then none
  return fraction rest

/-- Whether a text is a time zone: `Z`, or the distance to it in hours and minutes. -/
def isZone : List Char → Bool
  | ['Z'] => true
  | [s, a, b, ':', c, d] =>
    (s = '+' || s = '-') && [a, b, c, d].all Char.isDigit &&
      decide (String.ofList [a, b] ≤ "24") && decide (String.ofList [c, d] ≤ "60")
  | _ => false

/-- Whether a text is a point in time. -/
def isTimestamp (text : String) : Bool :=
  match date? text.toList with
  | none => false
  | some [] => true
  | some (c :: rest) =>
    if c = 'T' || c = 't' then (time? rest).any isZone
    else c = ' ' && (time? (rest.dropWhile (· = ' '))).any List.isEmpty

end Lasso.Yaml
