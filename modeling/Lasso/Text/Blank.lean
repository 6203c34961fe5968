import Lasso.Text.Ranges
/-!
# Blanks

Two classes of blank characters. `isBlank` is the wide one, the white space of all scripts; a
condition or an action of such characters only is empty. `isSpace` is the narrow one, by which the
parts of a channel action are separated.
-/

namespace Lasso.Text

/-- The ranges of white space. -/
def blankRanges : List (Nat × Nat) :=
  [(0x09, 0x0d), (0x20, 0x20), (0x85, 0x85), (0xa0, 0xa0), (0x1680, 0x1680), (0x2000, 0x200a),
   (0x2028, 0x2029), (0x202f, 0x202f), (0x205f, 0x205f), (0x3000, 0x3000)]

/-- White space of any script. -/
def isBlank (c : Char) : Bool := inRanges blankRanges c

/-- A blank, a tabulator, a line feed, a form feed or a carriage return. -/
def isSpace (c : Char) : Bool := c = ' ' || c = '\t' || c = '\n' || c = '\x0c' || c = '\r'

/-- Drops the characters of a class from the end. -/
def trimEnd (p : Char → Bool) (cs : List Char) : List Char := (cs.reverse.dropWhile p).reverse

/-- Drops white space from both ends. -/
def trim (s : String) : String := .ofList (trimEnd isBlank (s.toList.dropWhile isBlank))

end Lasso.Text
