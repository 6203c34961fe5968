/-!
# Places in a text

What the scanner of documents needs of characters, and a cursor: the characters that are still to be
read, with the number, the line and the column of the first of them.
-/

namespace Lasso.Yaml

/-! ## 1. Characters -/

/-- Whether a document may hold a character outside of escapes. -/
def isAllowed (c : Char) : Bool :=
  let n := c.toNat
  n = 0x09 || n = 0x0A || n = 0x0D || (0x20 ≤ n && n ≤ 0x7E) || n = 0x85 ||
    (0xA0 ≤ n && n ≤ 0xFFFD) || 0x10000 ≤ n

/-- Blanks within a line. -/
def isBlank (c : Char) : Bool := c = ' ' || c = '\t'

/-- Characters that end a line. -/
def isBreak (c : Char) : Bool :=
  c = '\n' || c = '\r' || c = '\x85' || c = '\u2028' || c = '\u2029'

/-- Whether a character is a blank or ends the line; the end of the text does. -/
def isBlankz : Option Char → Bool
  | none => true
  | some c => isBlank c || isBreak c

/-- Whether a character ends the line; the end of the text does. -/
def isBreakz : Option Char → Bool
  | none => true
  | some c => isBreak c

/-- The characters of anchors, handles and directives. -/
def isAlpha (c : Char) : Bool := c.isAlphanum || c = '_' || c = '-'

/-! ## 2. Cursors -/

/-- A place in a text. -/
structure Cursor where
  rest : List Char
  index : Nat := 0
  line : Nat := 0
  column : Nat := 0

namespace Cursor

/-- The character here. -/
def peek? (c : Cursor) : Option Char := c.rest.head?

/-- The character a few places further on. -/
def peekAt? (c : Cursor) (n : Nat) : Option Char := c.rest[n]?

/-- Whether a certain character stands here. -/
def isAt (c : Cursor) (x : Char) : Bool := c.peek? = some x

/-- Whether the character here satisfies a condition. -/
def test (c : Cursor) (p : Char → Bool) : Bool := c.peek?.any p

/-- Steps over characters of a line. -/
def skip (c : Cursor) (n : Nat := 1) : Cursor :=
  { c with rest := c.rest.drop n, index := c.index + n, column := c.column + n }

/-- Steps over the end of a line, and returns what it stands for: most ends of lines are one line
feed, line and paragraph separators stand for themselves. -/
def readBreak (c : Cursor) : List Char × Cursor :=
  match c.rest with
  | '\r' :: '\n' :: rest => (['\n'], ⟨rest, c.index + 2, c.line + 1, 0⟩)
  | x :: rest =>
    if isBreak x then
      (if x = '\u2028' || x = '\u2029' then [x] else ['\n'],
        ⟨rest, c.index + 1, c.line + 1, 0⟩)
    else ([], c)
  | [] => ([], c)

/-- Steps over the end of a line. -/
def skipBreak (c : Cursor) : Cursor := c.readBreak.2

/-- Reads as many characters of a line as satisfy a condition. -/
def takeWhile (c : Cursor) (p : Char → Bool) : List Char × Cursor :=
  let run := c.rest.takeWhile p
  (run, c.skip run.length)

/-- Steps over as many characters of a line as satisfy a condition. -/
def skipWhile (c : Cursor) (p : Char → Bool) : Cursor := (c.takeWhile p).2

/-- Steps to the end of the line. -/
def skipLine (c : Cursor) : Cursor := c.skipWhile fun x => !isBreak x

/-- Whether a line starts here with three characters of a kind behind which nothing or a blank
stands. -/
def isIndicator (c : Cursor) (x : Char) : Bool :=
  c.column = 0 && c.isAt x && c.peekAt? 1 = some x && c.peekAt? 2 = some x &&
    isBlankz (c.peekAt? 3)

/-- Whether a document starts or ends here. -/
def atDocumentIndicator (c : Cursor) : Bool := c.isIndicator '-' || c.isIndicator '.'

end Cursor

end Lasso.Yaml
