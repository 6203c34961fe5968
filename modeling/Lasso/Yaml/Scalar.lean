import Lasso.Yaml.Cursor
/-!
# Scalars of documents

Reads plain, quoted and block scalars from a cursor. Where a scalar goes on over the end of a line,
the gap between its parts is folded: one end of a line becomes a blank, more than one become one line
feed less.

* `scanPlain`, `scanQuoted` and `scanBlock` return the text and the place behind it.
-/

namespace Lasso.Yaml

/-! ## 1. Gaps -/

/-- The blanks and ends of lines between two parts of a scalar. -/
structure Gap where
  /-- The blanks, as long as the line has not ended. -/
  blanks : List Char := []
  /-- Whether the line has ended. -/
  broken : Bool := false
  /-- What the first end of a line stands for. -/
  first : List Char := []
  /-- What the other ends of lines stand for. -/
  more : List Char := []

/-- The text that a gap stands for. -/
def Gap.text (g : Gap) : List Char :=
  if !g.broken then g.blanks
  else if g.first = ['\n'] then (if g.more.isEmpty then [' '] else g.more)
  else g.first ++ g.more

/-- Reads a gap. A tab that stands left of `margin` in a new line is refused. -/
def readGap (margin : Nat) : (fuel : Nat) → Cursor → Gap → Option (Gap × Cursor)
  | 0, _, _ => none
  | fuel + 1, c, g =>
    match c.peek? with
    | none => some (g, c)
    | some x =>
      if isBlank x then
        if g.broken && c.column < margin && x = '\t' then none
        else readGap margin fuel (c.skip) (if g.broken then g else { g with blanks := g.blanks ++ [x] })
      else if isBreak x then
        let (text, c) := c.readBreak
        readGap margin fuel c (if g.broken then { g with more := g.more ++ text }
          else { g with broken := true, first := text })
      else some (g, c)

/-! ## 2. Plain scalars -/

/-- How many characters belong to a plain scalar before the next gap or its end. -/
def plainRun (flow : Bool) : List Char → Nat
  | [] => 0
  | c :: cs =>
    if isBlankz (some c) || (c = ':' && isBlankz cs.head?) ||
        (flow && (c = ',' || c = '?' || c = '[' || c = ']' || c = '\x7b' || c = '\x7d')) then 0
    else plainRun flow cs + 1

/-- A scalar with the place behind it, and whether the line ended behind its last character. -/
structure Scanned where
  text : List Char
  cursor : Cursor
  broken : Bool := false

/-- Reads a plain scalar on; `gap` is the last gap. -/
def plainFrom (flow : Bool) (margin : Nat) :
    (fuel : Nat) → Cursor → (text : List Char) → (gap : Gap) → Option Scanned
  | 0, _, _, _ => none
  | fuel + 1, c, text, gap =>
    if c.atDocumentIndicator || c.isAt '#' then some ⟨text, c, gap.broken⟩
    else
      let n := plainRun flow c.rest
      if n = 0 then some ⟨text, c, gap.broken⟩
      else
        let text := text ++ gap.text ++ c.rest.take n
        let c := c.skip n
        if c.peek?.isSome && isBlankz c.peek? then
          match readGap margin (c.rest.length + 1) c {} with
          | none => none
          | some (gap, c) =>
            if !flow && c.column < margin then some ⟨text, c, gap.broken⟩
            else plainFrom flow margin fuel c text gap
        else some ⟨text, c, false⟩

/-- Reads a plain scalar. Outside of flow collections its lines stand right of `margin`. -/
def scanPlain (flow : Bool) (margin : Nat) (c : Cursor) : Option Scanned :=
  plainFrom flow margin (c.rest.length + 1) c [] {}

/-! ## 3. Quoted scalars -/

/-- The character that a letter stands for behind a backslash. -/
def escaped? : Char → Option Char
  | '0' => some '\x00'
  | 'a' => some '\x07'
  | 'b' => some '\x08'
  | 't' | '\t' => some '\t'
  | 'n' => some '\n'
  | 'v' => some '\x0b'
  | 'f' => some '\x0c'
  | 'r' => some '\r'
  | 'e' => some '\x1b'
  | ' ' => some ' '
  | '"' => some '"'
  | '\'' => some '\''
  | '\\' => some '\\'
  | 'N' => some '\x85'
  | '_' => some '\xa0'
  | 'L' => some '\u2028'
  | 'P' => some '\u2029'
  | _ => none

/-- How many hexadecimal digits follow a letter behind a backslash. -/
def codeLength? : Char → Option Nat
  | 'x' => some 2
  | 'u' => some 4
  | 'U' => some 8
  | _ => none

/-- The value of a hexadecimal digit. -/
def hexValue? (c : Char) : Option Nat :=
  if '0' ≤ c && c ≤ '9' then some (c.toNat - '0'.toNat)
  else if 'a' ≤ c && c ≤ 'f' then some (c.toNat - 'a'.toNat + 10)
  else if 'A' ≤ c && c ≤ 'F' then some (c.toNat - 'A'.toNat + 10)
  else none

/-- The character with a code in hexadecimal digits. -/
def charOfHex? (ds : List Char) : Option Char := do
  let n ← ds.foldlM (fun n d => do return n * 16 + (← hexValue? d)) 0
  if h : n.isValidChar then some (Char.ofNatAux n h) else none

/-- Reads the characters of a quoted scalar up to a blank, the end of the line or the quote. Behind a
backslash at the end of a line, `broken` is set and the line has ended. -/
def quotedRun (single : Bool) : (fuel : Nat) → Cursor → List Char → Option (List Char × Cursor × Bool)
  | 0, _, _ => none
  | fuel + 1, c, text =>
    match c.peek? with
    | none => some (text, c, false)
    | some x =>
      if isBlankz (some x) then some (text, c, false)
      else if single then
        if x = '\'' then
          if c.peekAt? 1 = some '\'' then quotedRun single fuel (c.skip 2) (text ++ ['\''])
          else some (text, c, false)
        else quotedRun single fuel (c.skip) (text ++ [x])
      else if x = '"' then some (text, c, false)
      else if x = '\\' then
        match c.peekAt? 1 with
        | none => none
        | some y =>
          if isBreak y then some (text, (c.skip).skipBreak, true)
          else
            match codeLength? y with
            | some n =>
              let ds := (c.rest.drop 2).take n
              if ds.length < n then none
              else
                match charOfHex? ds with
                | none => none
                | some z => quotedRun single fuel (c.skip (2 + n)) (text ++ [z])
            | none =>
              match escaped? y with
              | none => none
              | some z => quotedRun single fuel (c.skip 2) (text ++ [z])
      else quotedRun single fuel (c.skip) (text ++ [x])

/-- Reads a quoted scalar on, behind its first quote. -/
def quotedFrom (single : Bool) : (fuel : Nat) → Cursor → List Char → Option Scanned
  | 0, _, _ => none
  | fuel + 1, c, text =>
    if c.atDocumentIndicator || c.peek?.isNone then none
    else
      match quotedRun single (c.rest.length + 1) c text with
      | none => none
      | some (text, c, broken) =>
        if c.isAt (if single then '\'' else '"') then some ⟨text, c.skip, false⟩
        else
          match readGap 0 (c.rest.length + 1) c { broken := broken } with
          | none => none
          | some (gap, c) => quotedFrom single fuel c (text ++ gap.text)

/-- Reads a quoted scalar. -/
def scanQuoted (single : Bool) (c : Cursor) : Option Scanned :=
  quotedFrom single (c.rest.length + 1) c.skip []

/-! ## 4. Block scalars -/

/-- What happens to the ends of lines behind a block scalar. -/
inductive Chomp where
  | strip
  | clip
  | keep
  deriving DecidableEq, Repr

/-- The head of a block scalar: how its end is treated, and its indentation if it is given. -/
structure BlockHead where
  chomp : Chomp := .clip
  indent? : Option Nat := none

/-- Reads the sign of a head. -/
def readChomp (c : Cursor) : Option Chomp × Cursor :=
  if c.isAt '+' then (some .keep, c.skip)
  else if c.isAt '-' then (some .strip, c.skip)
  else (none, c)

/-- Reads the digit of a head, which must not be zero. -/
def readIndent (c : Cursor) : Option (Option Nat × Cursor) :=
  match c.peek? with
  | some d =>
    if d = '0' then none
    else if d.isDigit then some (some (d.toNat - '0'.toNat), c.skip)
    else some (none, c)
  | none => some (none, c)

/-- Reads the head of a block scalar up to the start of the next line: a sign and a digit in any
order, and perhaps a comment. -/
def readBlockHead (c : Cursor) : Option (BlockHead × Cursor) := do
  let (chomp?, c) := readChomp c
  let (indent?, c) ← readIndent c
  let (chomp?, c) := if chomp?.isNone && indent?.isSome then readChomp c else (chomp?, c)
  let c := c.skipWhile isBlank
  let c := if c.isAt '#' then c.skipLine else c
  if !isBreakz c.peek? then none
  return (⟨chomp?.getD .clip, indent?⟩, c.skipBreak)

/-- Reads empty lines and the indentation of the first line that is not empty. Without a known
indentation all blanks are read. Returns what the ends of lines stand for, and the greatest column
met. -/
def blockBreaks (indent? : Option Nat) :
    (fuel : Nat) → Cursor → (breaks : List Char) → (widest : Nat) → Option (List Char × Nat × Cursor)
  | 0, _, _, _ => none
  | fuel + 1, c, breaks, widest =>
    let inside (c : Cursor) := match indent? with
      | none => true
      | some n => c.column < n
    let room := match indent? with
      | none => c.rest.length
      | some n => n - c.column
    let c := c.skip ((c.rest.take room).takeWhile (· = ' ')).length
    let widest := max widest c.column
    if inside c && c.isAt '\t' then none
    else if c.test isBreak then
      let (text, c) := c.readBreak
      blockBreaks indent? fuel c (breaks ++ text) widest
    else some (breaks, widest, c)

/-- The parts of a block scalar that is being read: its text, the end of its last line, and the empty
lines behind it. -/
structure BlockPart where
  text : List Char := []
  lineEnd : List Char := []
  breaks : List Char := []
  /-- Whether the last line starts with a blank. -/
  blankLine : Bool := false

/-- Reads the lines of a block scalar with a given indentation. -/
def blockLines (literal : Bool) (indent : Nat) :
    (fuel : Nat) → Cursor → BlockPart → Option (BlockPart × Cursor)
  | 0, _, _ => none
  | fuel + 1, c, b =>
    if c.column ≠ indent || c.peek?.isNone then some (b, c)
    else
      let blank := c.test isBlank
      let joined :=
        if !literal && !b.blankLine && !blank && b.lineEnd = ['\n'] then
          (if b.breaks.isEmpty then [' '] else [])
        else b.lineEnd
      let (line, c) := c.takeWhile fun x => !isBreak x
      let (lineEnd, c) := c.readBreak
      match blockBreaks (some indent) (c.rest.length + 1) c [] 0 with
      | none => none
      | some (breaks, _, c) =>
        blockLines literal indent fuel c
          ⟨b.text ++ joined ++ b.breaks ++ line, lineEnd, breaks, blank⟩

/-- Reads a block scalar from its first character. The indentation is counted from `parent`, which is
negative outside of all collections; if it is not given, the widest of the first lines gives it. -/
def scanBlock (literal : Bool) (parent : Int) (c : Cursor) : Option Scanned := do
  let (head, c) ← readBlockHead c.skip
  let given? := head.indent?.map fun n => (max parent 0).toNat + n
  let (breaks, widest, c) ← blockBreaks given? (c.rest.length + 1) c [] 0
  let indent := given?.getD (max (max widest (parent + 1).toNat) 1)
  let (b, c) ← blockLines literal indent (c.rest.length + 1) c { breaks := breaks }
  let tail := match head.chomp with
    | .strip => []
    | .clip => b.lineEnd
    | .keep => b.lineEnd ++ b.breaks
  return ⟨b.text ++ tail, c, true⟩

end Lasso.Yaml
