import Lasso.Text.Letter
/-!
# The natural order of names

Names are compared character by character. Where they differ, numbers are compared by their values,
and a letter comes behind everything else, except right behind a digit.

Main definitions: `naturalLt` and `sortNaturally`.
-/

namespace Lasso.Text

/-- Letters of any script, without the underscore. -/
def isAlphabetic (c : Char) : Bool := isLetter c && c ≠ '_'

/-- The digits at the start of a text. -/
def leadingDigits (cs : List Char) : List Char := cs.takeWhile isDigit

/-- The value of digits behind the digits of `start`, counted in 64 bits. -/
def digitsValue (start : Int64) (ds : List Char) : Int64 :=
  ds.foldl (fun n d => n * 10 + (Int64.ofInt ((d.toNat : Int) - '0'.toNat))) start

/-- Compares two texts behind the same start, whose characters are given from the last to the
first. -/
def naturalFrom (before : List Char) : List Char → List Char → Bool
  | a :: as, b :: bs =>
    if a = b then naturalFrom (a :: before) as bs
    else if isAlphabetic a && isAlphabetic b then a < b
    else if isAlphabetic a || isAlphabetic b then
      if before.head?.any isDigit then isAlphabetic a else isAlphabetic b
    else
      -- zeros at the start of a number do not count, but those within it do
      let start : Int64 :=
        if (a = '0' || b = '0') && (before.takeWhile isDigit).any (· ≠ '0') then 1 else 0
      let da := leadingDigits (a :: as)
      let db := leadingDigits (b :: bs)
      let na := digitsValue start da
      let nb := digitsValue start db
      if na ≠ nb then na < nb
      else if da.length ≠ db.length then da.length < db.length
      else a < b
  | [], _ :: _ => true
  | _, [] => false

/-- The natural order of names. -/
def naturalLt (a b : String) : Bool := naturalFrom [] a.toList b.toList

/-- Names with something attached to them, in natural order. -/
def sortNaturally {α : Type} (xs : List (String × α)) : List (String × α) :=
  xs.mergeSort fun x y => !naturalLt y.1 x.1

end Lasso.Text
