import Lasso.Yaml.Scalar
import Lasso.Yaml.Token
/-!
# Scanning documents

Turns a text into tokens. Indentation becomes tokens of its own, and a token that turns out to be a
key gets a key token put in front of it when the colon behind it is found.

* `Scanner.step` reads one token;
* `scan` reads the whole text, or as much as can be read.
-/

namespace Lasso.Yaml

/-! ## 1. State -/

/-- A token that may turn out to be a key: its number and place, and whether it must be one. -/
structure KeyPlace where
  token : Nat
  required : Bool
  index : Nat
  line : Nat
  column : Nat

/-- Whether a possible key can still be one: it stands in the same line, not too far away. -/
def KeyPlace.isNear (k : KeyPlace) (c : Cursor) : Bool :=
  k.line = c.line && c.index ≤ k.index + 1024

/-- The state between two tokens. -/
structure Scanner where
  cursor : Cursor
  tokens : Array Token := #[]
  /-- The column of the innermost block collection, -1 outside of all. -/
  indent : Int := -1
  /-- The columns of the collections around it. -/
  indents : List Int := []
  /-- How many flow collections are open. -/
  flow : Nat := 0
  /-- The possible key in each open flow collection, and outside of them, from the innermost. -/
  keys : List (Option KeyPlace) := [none]
  /-- Whether a key may start here. -/
  keyAllowed : Bool := true

namespace Scanner

def push (s : Scanner) (t : Token) : Scanner := { s with tokens := s.tokens.push t }

/-- Steps over characters and adds a token. -/
def emit (s : Scanner) (n : Nat) (t : Token) : Scanner :=
  { s.push t with cursor := s.cursor.skip n }

/-- The possible key at this level. -/
def key? (s : Scanner) : Option KeyPlace := s.keys.head?.join

def setKey (s : Scanner) (k? : Option KeyPlace) : Scanner := { s with keys := k? :: s.keys.tail }

/-- Gives up the possible key at this level; a key that is required cannot be given up. -/
def dropKey (s : Scanner) : Option Scanner :=
  match s.key? with
  | some k => if k.required then none else some (s.setKey none)
  | none => some s

/-- Notes that the token to come may be a key. -/
def saveKey (s : Scanner) : Option Scanner :=
  if !s.keyAllowed then some s
  else do
    let c := s.cursor
    let required := s.flow = 0 && s.indent = c.column
    let s ← s.dropKey
    return s.setKey (some ⟨s.tokens.size, required, c.index, c.line, c.column⟩)

/-- Ends the block collections that stand right of a column. -/
def unroll (column : Int) (s : Scanner) : Scanner :=
  if s.flow > 0 then s else go s.indents s
where
  go : List Int → Scanner → Scanner
    | [], s => s
    | i :: rest, s =>
      if s.indent > column then go rest { s.push .blockEnd with indent := i, indents := rest } else s

/-- Starts a block collection at a column unless there is one already; its token goes in front of
the token with the given number. -/
def roll (s : Scanner) (column number : Nat) (t : Token) : Scanner :=
  if s.flow > 0 then s
  else if s.indent < column then
    { s with
      indents := s.indent :: s.indents
      indent := column
      tokens := s.tokens.insertIdxIfInBounds number t }
  else s

/-! ## 2. Blanks and comments -/

/-- Steps over a comment, and over the comments in the lines behind it. -/
def skipComments : (fuel : Nat) → Cursor → Cursor
  | 0, c => c
  | fuel + 1, c =>
    let c := c.skipLine
    let n := (c.rest.takeWhile fun x => isBlank x || isBreak x).length
    if c.peekAt? n = some '#' then skipComments fuel (steps n c) else c
where
  /-- Steps over blanks and ends of lines. -/
  steps (n : Nat) (c : Cursor) : Cursor :=
    let target := c.index + n
    go (n + 1) target c
  go : (fuel : Nat) → Nat → Cursor → Cursor
    | 0, _, c => c
    | fuel + 1, target, c =>
      if c.index ≥ target then c
      else if c.test isBreak then go fuel target c.skipBreak
      else go fuel target c.skip

/-- Steps to the next token. A tab may stand only where no key may start. -/
def toToken : (fuel : Nat) → Scanner → Scanner
  | 0, s => s
  | fuel + 1, s =>
    let tabs := s.flow > 0 || !s.keyAllowed
    let c := s.cursor.skipWhile fun x => x = ' ' || (tabs && x = '\t')
    let c := if c.isAt '#' then skipComments (c.rest.length + 1) c else c
    if c.test isBreak then
      toToken fuel { s with cursor := c.skipBreak, keyAllowed := s.keyAllowed || s.flow = 0 }
    else { s with cursor := c }

/-- Steps over a comment in the same line. -/
def lineComment (s : Scanner) : Scanner :=
  let c := s.cursor.skipWhile isBlank
  if c.isAt '#' then { s with cursor := c.skipLine } else s

/-! ## 3. Directives, tags and anchors -/

/-- Reads a number of at most two digits. -/
def readVersion (c : Cursor) : Option (Nat × Cursor) := do
  let (ds, c) := c.takeWhile Char.isDigit
  if ds.isEmpty || ds.length > 2 then none
  return (ds.foldl (fun n d => n * 10 + (d.toNat - '0'.toNat)) 0, c)

/-- Reads a tag handle, such as `!` or `!name!`. The closing mark may be missing outside of
directives. -/
def readHandle (directive : Bool) (c : Cursor) : Option (List Char × Cursor) := do
  if !c.isAt '!' then none
  let (name, c) := c.skip.takeWhile isAlpha
  if c.isAt '!' then return ('!' :: name ++ ['!'], c.skip)
  if directive && !name.isEmpty then none
  return ('!' :: name, c)

/-- The characters of tags. -/
def isUriChar (c : Char) : Bool :=
  isAlpha c || (";/?:@&=+$,.!~*'()[]%".toList.contains c)

/-- Replaces the escapes in the characters of a tag. -/
def unescapeUri : List Char → Option (List Char)
  | [] => some []
  | '%' :: a :: b :: rest => do
    let n ← hexValue? a
    let m ← hexValue? b
    let cs ← unescapeUri rest
    return Char.ofNat (n * 16 + m) :: cs
  | '%' :: _ => none
  | c :: rest => (unescapeUri rest).map (c :: ·)

/-- Reads the rest of a tag behind some characters of it. -/
def readUri (head : List Char) (c : Cursor) : Option (List Char × Cursor) := do
  let (cs, c) := c.takeWhile isUriChar
  if head.isEmpty && cs.isEmpty then none
  return (head.drop 1 ++ (← unescapeUri cs), c)

/-- Reads a tag: its handle and its suffix. -/
def readTag (c : Cursor) : Option (Token × Cursor) := do
  let (handle, suffix, c) ← (if c.peekAt? 1 = some '<' then do
      let (uri, c) ← readUri [] (c.skip 2)
      if !c.isAt '>' then none
      return ([], uri, c.skip)
    else do
      let (handle, c) ← readHandle false c
      if handle.length > 1 && handle.getLast? = some '!' then
        let (uri, c) ← readUri [] c
        return (handle, uri, c)
      else
        let (uri, c) ← readUri handle c
        return if uri.isEmpty then ([], ['!'], c) else (['!'], uri, c)
      : Option (List Char × List Char × Cursor))
  if !isBlankz c.peek? then none
  return (.tag (String.ofList handle) (String.ofList suffix), c)

/-- Reads the name of an anchor or an alias behind its mark. -/
def readName (c : Cursor) : Option (String × Cursor) := do
  let (name, c) := c.skip.takeWhile isAlpha
  if name.isEmpty then none
  let ends := isBlankz c.peek? || c.test ("?:,]\x7d%@\x60".toList.contains ·)
  if ends then some (String.ofList name, c) else none

/-- Reads a directive with its line. -/
def readDirective (c : Cursor) : Option (Token × Cursor) := do
  let (name, c) := c.skip.takeWhile isAlpha
  if name.isEmpty || !isBlankz c.peek? then none
  let c := c.skipWhile isBlank
  let (t, c) ← (if name = "YAML".toList then do
      let (major, c) ← readVersion c
      if !c.isAt '.' then none
      let (minor, c) ← readVersion c.skip
      return (.version major minor, c)
    else if name = "TAG".toList then do
      let (handle, c) ← readHandle true c
      if !c.test isBlank then none
      let (stem, c) ← readUri [] (c.skipWhile isBlank)
      if !isBlankz c.peek? then none
      return (.tagDirective (String.ofList handle) (String.ofList stem), c)
    else none : Option (Token × Cursor))
  let c := c.skipWhile isBlank
  let c := if c.isAt '#' then c.skipLine else c
  if !isBreakz c.peek? then none
  return (t, c.skipBreak)

/-! ## 4. Tokens -/

/-- Ends everything that is open, before a directive, a document or the end of the text. -/
def reset (s : Scanner) : Option Scanner := do
  let s ← (s.unroll (-1)).dropKey
  return { s with keyAllowed := false }

/-- A scalar, a tag, an anchor or an alias. It may be a key, and no key may start behind it unless
its line has ended. -/
def addNode (s : Scanner) (t : Token) (c : Cursor) (broken : Bool) : Scanner :=
  { s.push t with cursor := c, keyAllowed := broken }

/-- Reads a flow collection's opening bracket. -/
def openFlow (s : Scanner) (t : Token) : Option Scanner := do
  let s ← s.saveKey
  return { s.emit 1 t with flow := s.flow + 1, keys := none :: s.keys, keyAllowed := true }

/-- Reads a flow collection's closing bracket. -/
def closeFlow (s : Scanner) (t : Token) : Option Scanner := do
  let s ← s.dropKey
  let s := if s.flow > 0 then { s with flow := s.flow - 1, keys := s.keys.tail } else s
  return { s.emit 1 t with keyAllowed := false }

/-- Reads the dash in front of an entry. -/
def blockEntry (s : Scanner) : Option Scanner := do
  if s.flow = 0 && !s.keyAllowed then none
  let s ← (s.roll s.cursor.column s.tokens.size .blockSequenceStart).dropKey
  return { s.emit 1 .blockEntry with keyAllowed := true }

/-- Reads the question mark in front of a key. -/
def explicitKey (s : Scanner) : Option Scanner := do
  if s.flow = 0 && !s.keyAllowed then none
  let s ← (s.roll s.cursor.column s.tokens.size .blockMappingStart).dropKey
  return { s.emit 1 .key with keyAllowed := s.flow = 0 }

/-- Reads the colon in front of a value. If a possible key stands before it, that becomes a key. -/
def value (s : Scanner) : Option Scanner := do
  let near? ← (match s.key? with
    | none => some none
    | some k => if k.isNear s.cursor then some (some k) else if k.required then none else some none
    : Option (Option KeyPlace))
  match near? with
  | some k =>
    let s := { s with tokens := s.tokens.insertIdxIfInBounds k.token .key }
    let s := (s.roll k.column k.token .blockMappingStart).setKey none
    return { s.emit 1 .value with keyAllowed := false }
  | none =>
    if s.flow = 0 && !s.keyAllowed then none
    let s := (s.setKey none).roll s.cursor.column s.tokens.size .blockMappingStart
    return { s.emit 1 .value with keyAllowed := s.flow = 0 }

/-- Whether a plain scalar starts with a character, when another stands behind it. -/
def startsPlain (flow : Bool) (c : Char) (next? : Option Char) : Bool :=
  !(isBlankz (some c) || "-?:,[]\x7b\x7d#&*!|>'\"%@\x60".toList.contains c) ||
    (c = '-' && !next?.any isBlank) || (!flow && (c = '?' || c = ':') && !isBlankz next?)

/-- Reads the token that starts with a character; the flag tells whether the line ended with it. -/
def tokenAt (s : Scanner) (x : Char) : Option (Scanner × Bool) :=
  let c := s.cursor
  let next? := c.peekAt? 1
  let flow := s.flow > 0
  let node (r : Option (Token × Cursor)) : Option (Scanner × Bool) := do
    let s ← s.saveKey
    let (t, c) ← r
    return (s.addNode t c false, false)
  let scalar (style : Style) (r : Option Scanned) : Option (Scanner × Bool) := do
    let s ← s.saveKey
    let r ← r
    return (s.addNode (.scalar (String.ofList r.text) style) r.cursor r.broken, r.broken)
  let block (style : Style) : Option (Scanner × Bool) := do
    let s ← s.dropKey
    let r ← scanBlock (style = .literal) s.indent c
    return (s.addNode (.scalar (String.ofList r.text) style) r.cursor true, true)
  let plainly (r : Option Scanner) : Option (Scanner × Bool) := r.map (·, false)
  if x = '[' then plainly (s.openFlow .flowSequenceStart)
  else if x = '\x7b' then plainly (s.openFlow .flowMappingStart)
  else if x = ']' then plainly (s.closeFlow .flowSequenceEnd)
  else if x = '\x7d' then plainly (s.closeFlow .flowMappingEnd)
  else if x = ',' then do
    let s ← s.dropKey
    return ({ s.emit 1 .flowEntry with keyAllowed := true }, false)
  else if x = '-' && isBlankz next? then plainly s.blockEntry
  else if x = '?' && (flow || isBlankz next?) then plainly s.explicitKey
  else if x = ':' && (flow || isBlankz next?) then plainly s.value
  else if x = '*' then node ((readName c).map fun (n, c) => (.alias n, c))
  else if x = '&' then node ((readName c).map fun (n, c) => (.anchor n, c))
  else if x = '!' then node (readTag c)
  else if x = '|' && !flow then block .literal
  else if x = '>' && !flow then block .folded
  else if x = '\'' then scalar .singleQuoted (scanQuoted true c)
  else if x = '"' then scalar .doubleQuoted (scanQuoted false c)
  else if startsPlain flow x next? then scalar .plain (scanPlain flow (s.indent + 1).toNat c)
  else none

/-- Reads the next token, or several when collections end. Nothing follows the end of the text. -/
def step (s : Scanner) : Option Scanner :=
  let s := s.toToken (s.cursor.rest.length + 1)
  let s := s.unroll s.cursor.column
  let c := s.cursor
  match c.peek? with
  | none => do
    let s ← s.reset
    return s.push .streamEnd
  | some x =>
    if c.column = 0 && x = '%' then do
      let s ← s.reset
      let (t, c) ← readDirective c
      return { s.push t with cursor := c }
    else if c.isIndicator '-' then do
      let s ← s.reset
      return s.emit 3 .documentStart
    else if c.isIndicator '.' then do
      let s ← s.reset
      return s.emit 3 .documentEnd
    else do
      let (s, broken) ← s.tokenAt x
      return if broken || s.tokens.back? = some .blockEntry then s else s.lineComment

/-- Reads tokens up to the end of the text; the flag tells whether it was reached. -/
def run : (fuel : Nat) → Scanner → Scanner × Bool
  | 0, s => (s, false)
  | fuel + 1, s =>
    if s.tokens.back? = some .streamEnd then (s, true)
    else
      match s.step with
      | none => (s, false)
      | some s => run fuel s

end Scanner

/-! ## 5. Texts -/

/-- The characters of a text without a mark of the byte order at its start. -/
def contents (text : String) : List Char :=
  match text.toList with
  | '\ufeff' :: cs => cs
  | cs => cs

/-- The tokens of a text. Two tokens are always read ahead, so when something cannot be read, the two
tokens before it are lost. -/
def scan (text : String) : Option (List Token) :=
  let cs := contents text
  if cs.all isAllowed then
    let (s, done) := Scanner.run (cs.length + 2) { cursor := { rest := cs } }
    some (if done then s.tokens.toList else s.tokens.toList.take (s.tokens.size - 2))
  else none

end Lasso.Yaml
