import Lasso.Yaml.Cursor
import Lasso.Yaml.Resolve
import Lasso.Yaml.Token
/-!
# How texts are written

Which of the ways to write a scalar fits a text: plain if it would be read back as a text, in lines
of its own if it has several lines, and quoted otherwise.

Main definition: `styleOf`.
-/

namespace Lasso.Yaml

/-! ## 1. What a text holds -/

/-- Whether a character is written as it is. -/
def isPrintable (c : Char) : Bool :=
  let n := c.toNat
  n = 0x0A || (0x20 ≤ n && n ≤ 0x7E) || (0xA0 ≤ n && n ≤ 0xFFFD && n ≠ 0xFEFF)

/-- What matters about a text when it is written. -/
structure Traits where
  /-- The text could be taken for something else than a plain scalar. -/
  indicators : Bool := false
  leadingBlank : Bool := false
  trailingBlank : Bool := false
  /-- Whether the text ends with a space. -/
  trailingSpace : Bool := false
  /-- A space follows the end of a line. -/
  breakSpace : Bool := false
  /-- The end of a line follows a space. -/
  spaceBreak : Bool := false
  breaks : Bool := false
  tabs : Bool := false
  /-- Some characters are not printable. -/
  special : Bool := false

def isSpaceOrBreak (c : Char) : Bool := c = ' ' || isBreak c

/-- Whether a text is followed by a blank or ends. -/
def endsBlank (rest : List Char) : Bool := (rest.head?.map isBlank).getD true

/-- Whether the start of a text shows that it is no plain scalar. -/
def startIndicates : List Char → Bool
  | [] => false
  | c :: rest =>
    "#,[]\x7b\x7d&*!|>'\"%@\x60".toList.contains c ||
      ((c = '?' || c = ':' || c = '-') && endsBlank rest) ||
      ("---".toList.isPrefixOf (c :: rest)) || ("...".toList.isPrefixOf (c :: rest))

/-- Whether two places in a text, one behind the other, satisfy conditions. -/
def somePair (p : Char → Bool) (q : List Char → Bool) : List Char → Bool
  | [] => false
  | c :: rest => (p c && q rest) || somePair p q rest

def startsWith (p : Char → Bool) (cs : List Char) : Bool := (cs.head?.map p).getD false

/-- The traits of a text. -/
def traits (cs : List Char) : Traits where
  indicators := startIndicates cs ||
    somePair (fun _ => true) (fun rest =>
      match rest with
      | ':' :: more => endsBlank more
      | _ => false) cs ||
    somePair (fun c => isBlank c || isBreak c) (startsWith (· = '#')) cs
  leadingBlank := startsWith isSpaceOrBreak cs
  trailingBlank := (cs.getLast?.map isSpaceOrBreak).getD false
  trailingSpace := cs.getLast? = some ' '
  breakSpace := somePair isBreak (startsWith (· = ' ')) cs
  spaceBreak := somePair (· = ' ') (startsWith isBreak) cs
  breaks := cs.any isBreak
  tabs := cs.contains '\t'
  special := cs.any fun c => c ≠ '\t' && !isPrintable c

/-- Whether a text may be written plain. -/
def Traits.plain (t : Traits) : Bool :=
  !(t.indicators || t.leadingBlank || t.trailingBlank || t.breakSpace || t.spaceBreak || t.tabs ||
    t.special || t.breaks)

/-- Whether a text may be written between single quotes. -/
def Traits.single (t : Traits) : Bool := !(t.breakSpace || t.spaceBreak || t.tabs || t.special)

/-- Whether a text may be written in lines of its own. -/
def Traits.block (t : Traits) : Bool := !(t.trailingSpace || t.spaceBreak || t.special)

/-! ## 2. Words that are quoted -/

/-- The words that some readers take for truth values. -/
def isTruthWord (text : String) : Bool :=
  ["y", "Y", "yes", "Yes", "YES", "on", "On", "ON",
    "n", "N", "no", "No", "NO", "off", "Off", "OFF"].contains text

/-- Whether a text continues with groups of at most two digits behind colons, each below 60. The last
may have a part behind a point. -/
def isSixties : (fuel : Nat) → List Char → Bool
  | 0, _ => false
  | fuel + 1, ':' :: rest =>
    let done (rest : List Char) : Bool :=
      match rest with
      | [] => true
      | '.' :: more => more.all fun c => c.isDigit || c = '_'
      | _ => isSixties fuel rest
    match rest with
    | a :: b :: more =>
      if a.isDigit && b.isDigit then '0' ≤ a && a ≤ '5' && done more
      else a.isDigit && done (b :: more)
    | [a] => a.isDigit
    | [] => false
  | _, _ => false

/-- Whether a text is a number in base 60, which some readers know. -/
def isSixty (text : String) : Bool :=
  let cs := text.toList
  let cs := match cs with
    | '+' :: rest | '-' :: rest => rest
    | cs => cs
  match cs with
  | d :: rest =>
    d.isDigit && isSixties (cs.length + 1) (rest.dropWhile fun c => c.isDigit || c = '_')
  | [] => false

/-- Whether a plain scalar would be read back as this text everywhere. -/
def readsAsText (text : String) : Bool :=
  (meaning text).tag = "!!str" && !isSixty text && !isTruthWord text

/-! ## 3. Styles -/

/-- How a text is written; as a key it stays in one line. -/
def styleOf (isKey : Bool) (text : String) : Style :=
  let cs := text.toList
  let t := traits cs
  if isKey && t.breaks then .doubleQuoted
  else if cs.contains '\n' then
    if t.block && !isKey then .literal else .doubleQuoted
  else if !readsAsText text then .doubleQuoted
  else if t.plain && !(cs.isEmpty && isKey) then .plain
  else if t.single then .singleQuoted
  else .doubleQuoted

end Lasso.Yaml
