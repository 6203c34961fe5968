import Lasso.Yaml.Style
/-!
# Writing documents

What is to be written, and its text. Lists and records stand in lines of their own, indented by four
places; what stands behind a dash is indented by two.

* `Content` is what can be written;
* `Printer` is the text so far, with what decides whether a line has to end or a blank has to come;
* `Content.document` is the text of a document.
-/

namespace Lasso.Yaml

inductive Content where
  | text (s : String)
  | int (n : Int)
  | bool (b : Bool)
  | list (items : List Content)
  | record (entries : List (String × Content))
  deriving Inhabited

/-! ## 1. Places -/

/-- The text that has been written, in reverse, and the place behind it. -/
structure Printer where
  out : List Char := []
  column : Nat := 0
  /-- Whether no blank is needed here. -/
  spaced : Bool := true
  /-- Whether only indentation and marks stand in the line. -/
  fresh : Bool := true

namespace Printer

def put (c : Char) (p : Printer) : Printer :=
  { p with out := c :: p.out, column := p.column + 1 }

def putAll (s : String) (p : Printer) : Printer := s.toList.foldl (fun p c => p.put c) p

/-- Ends the line. -/
def putBreak (c : Char) (p : Printer) : Printer :=
  { p with out := c :: p.out, column := 0, fresh := true }

def putBlank (p : Printer) : Printer := if p.spaced then p else p.put ' '

/-- Steps to the start of a line with the given indentation. -/
def startLine (indent : Nat) (p : Printer) : Printer :=
  let p := if !p.fresh || p.column > indent || (p.column = indent && !p.spaced) then
    p.putBreak '\n' else p
  { p.putAll (String.ofList (List.replicate (indent - p.column) ' ')) with spaced := true }

/-- Writes a mark. `needed` asks for a blank before it, `spaced` tells that none is needed behind it,
and `fresh` that a line may go on behind it as if it started there. -/
def mark (s : String) (needed spaced fresh : Bool) (p : Printer) : Printer :=
  let p := if needed then p.putBlank else p
  { p.putAll s with spaced := spaced, fresh := p.fresh && fresh }

/-- What stands behind a scalar needs a blank. -/
def endScalar (p : Printer) : Printer := { p with spaced := false, fresh := false }

end Printer

/-! ## 2. Scalars -/

/-- The digits of a number in upper-case hexadecimal. -/
def hexDigits (width n : Nat) : List Char :=
  let ds := (Nat.toDigits 16 n).map Char.toUpper
  List.replicate (width - ds.length) '0' ++ ds

/-- A character behind a backslash. -/
def escapeChar (c : Char) : List Char :=
  let n := c.toNat
  if n = 0 then ['0']
  else if n = 0x07 then ['a']
  else if n = 0x08 then ['b']
  else if n = 0x09 then ['t']
  else if n = 0x0A then ['n']
  else if n = 0x0B then ['v']
  else if n = 0x0C then ['f']
  else if n = 0x0D then ['r']
  else if n = 0x1B then ['e']
  else if n = 0x22 then ['"']
  else if n = 0x5C then ['\\']
  else if n = 0x85 then ['N']
  else if n = 0xA0 then ['_']
  else if n = 0x2028 then ['L']
  else if n = 0x2029 then ['P']
  else if n ≤ 0xFF then 'x' :: hexDigits 2 n
  else if n ≤ 0xFFFF then 'u' :: hexDigits 4 n
  else 'U' :: hexDigits 8 n

/-- The characters between double quotes. Behind a mark of the byte order all are escaped. -/
def doubleQuoted (cs : List Char) : List Char :=
  let all := cs.head? = some '\ufeff'
  cs.flatMap fun c =>
    if all || !isPrintable c || isBreak c || c = '"' || c = '\\' then '\\' :: escapeChar c else [c]

/-- Writes the characters of lines; each line gets its indentation when its first character comes. -/
def writeLines (indent : Nat) (quote : Bool) : List Char → (started : Bool) → Printer → Printer
  | [], _, p => p
  | c :: rest, started, p =>
    if isBreak c then writeLines indent quote rest true (p.putBreak c)
    else
      let p := if started then p.startLine indent else p
      let p := if quote && c = '\'' then p.put '\'' else p
      writeLines indent quote rest false { p.put c with fresh := false }

/-- What a text in lines of its own starts with: its indentation if the first line does not show it,
and what happens to the ends of lines behind it. -/
def blockMarks (cs : List Char) : String :=
  let hint := if startsWith isSpaceOrBreak cs then "4" else ""
  let chomp := match cs.reverse with
    | [] => "-"
    | c :: rest =>
      if !isBreak c then "-"
      else if rest.isEmpty || startsWith isBreak rest then "+"
      else ""
  hint ++ chomp

/-- Writes a text. -/
def writeText (isKey : Bool) (indent : Nat) (text : String) (p : Printer) : Printer :=
  let cs := text.toList
  match styleOf isKey text with
  | .plain => ((if cs.isEmpty then p else p.putBlank).putAll text).endScalar
  | .singleQuoted =>
    let p := p.mark "'" true false false
    -- the characters are written one by one, for a quote is written twice
    ((writeLines indent true cs false p).mark "'" false false false).endScalar
  | .doubleQuoted =>
    ((p.mark "\"" true false false).putAll (String.ofList (doubleQuoted cs))).mark "\"" false false false
      |>.endScalar
  | .literal | .folded =>
    let p := p.mark ("|" ++ blockMarks cs) true false false
    writeLines indent false cs true { p with spaced := true }

/-! ## 3. Collections -/

/-- The indentation within something that stands at an indentation, or outside of everything. -/
def deeper (inItem : Bool) : Option Nat → Nat
  | none => 0
  | some n => if inItem then n + 2 else 4 * ((n + 4) / 4)

/-- The indentation of the lines of a scalar. -/
def scalarIndent (inItem : Bool) : Option Nat → Nat
  | none => 4
  | some n => deeper inItem (some n)

/-- Whether a key can stand in front of its colon in one line. -/
def isSimpleKey (key : String) : Bool := !key.toList.any isBreak && key.utf8ByteSize ≤ 128

/-- Writes a key with its colon. -/
def writeKey (indent : Nat) (key : String) (p : Printer) : Printer :=
  let p := p.startLine indent
  let inner := deeper false (some indent)
  if isSimpleKey key then (writeText true inner key p).mark ":" false false false
  else
    ((writeText false inner key (p.mark "?" true false true)).startLine indent).mark ":" true false true

mutual

/-- Writes content behind a key, or behind a dash. -/
def Content.write (inItem : Bool) (indent? : Option Nat) : Content → Printer → Printer
  | .text s, p => writeText false (scalarIndent inItem indent?) s p
  | .int n, p => (p.putBlank.putAll (toString n)).endScalar
  | .bool b, p => (p.putBlank.putAll (toString b)).endScalar
  | .list items, p =>
    if items.isEmpty then (p.mark "[" true true false).mark "]" false false false
    else Content.writeItems (deeper inItem indent?) items p
  | .record entries, p =>
    if entries.isEmpty then (p.mark "\x7b" true true false).mark "\x7d" false false false
    else Content.writeEntries (deeper inItem indent?) entries p

def Content.writeItems (indent : Nat) : List Content → Printer → Printer
  | [], p => p
  | c :: rest, p =>
    Content.writeItems indent rest
      (c.write true (some indent) ((p.startLine indent).mark "-" true false true))

def Content.writeEntries (indent : Nat) : List (String × Content) → Printer → Printer
  | [], p => p
  | (k, c) :: rest, p =>
    Content.writeEntries indent rest (c.write false (some indent) (writeKey indent k p))

end

/-- The text of a document. -/
def Content.document (c : Content) : String :=
  String.ofList ((c.write false none {}).startLine 0).out.reverse

end Lasso.Yaml
