import Lasso.Config.Setting
import Lasso.Text.Quoted
/-!
# Settings in nested brackets

Reads settings that are written with braces, brackets, quoted names and colons.

Main definition: `Json.parse`.
-/

namespace Lasso.Config.Json

/-! ## 1. Failures -/

/-- Why a text cannot be read. -/
inductive Error where
  | unexpectedEnd
  /-- A byte that may not stand at its place. -/
  | unexpected (byte : UInt8) (place : String)
  /-- Something else than a table. -/
  | notTable (kind : String)
  | badNumber (text : String)
  deriving DecidableEq, Repr

/-- A byte between single quotes. -/
def quoteByte (b : UInt8) : String :=
  if b = 0x27 then "'\\''"
  else if b = 0x22 then "'\"'"
  else
    let quoted := (Text.quote (String.ofList [Char.ofNat b.toNat])).toList
    "'" ++ String.ofList (quoted.drop 1).dropLast ++ "'"

/-- The report of a failure. -/
def Error.message : Error → String
  | .unexpectedEnd => "unexpected end of JSON input"
  | .unexpected b place => "invalid character " ++ quoteByte b ++ " " ++ place
  | .notTable kind =>
    "json: cannot unmarshal " ++ kind ++ " into Go value of type map[string]interface \x7b\x7d"
  | .badNumber s =>
    "json: cannot unmarshal number " ++ s ++ " into Go value of type float64"

/-- The characters that are left, or why reading fails. -/
abbrev Reading := StateT (List Char) (Except Error)

/-- Refuses the next character. -/
def refuse {α : Type} (place : String) : Reading α := do
  match ← get with
  | [] => throw .unexpectedEnd
  | c :: _ => throw (.unexpected ((Bytes.ofString (String.ofList [c])).headD 0) place)

/-- Steps over blanks. -/
def blanks : Reading Unit :=
  modify fun cs => cs.dropWhile fun c => c = ' ' || c = '\t' || c = '\n' || c = '\r'

/-! ## 2. Scalars -/

/-- The value of a hexadecimal digit. -/
def hex? (c : Char) : Option Nat := Yaml.hexValue? c

/-- Reads four hexadecimal digits. -/
def hex4 : Reading Nat := do
  let mut n := 0
  for _ in [0, 1, 2, 3] do
    match ← get with
    | c :: cs =>
      match hex? c with
      | some d =>
        set cs
        n := n * 16 + d
      | none => refuse "in \\u hexadecimal character escape"
    | [] => throw .unexpectedEnd
  return n

/-- The character behind a backslash. -/
def escape? : Char → Option Char
  | '"' => some '"'
  | '\\' => some '\\'
  | '/' => some '/'
  | 'b' => some '\x08'
  | 'f' => some '\x0c'
  | 'n' => some '\n'
  | 'r' => some '\r'
  | 't' => some '\t'
  | _ => none

/-- Joins two halves of a character, or replaces a half that stands alone. -/
def joinHalves : List (Char ⊕ Nat) → List Char
  | [] => []
  | .inl c :: rest => c :: joinHalves rest
  | .inr h :: .inr l :: rest =>
    if 0xD800 ≤ h && h < 0xDC00 && 0xDC00 ≤ l && l < 0xE000 then
      Char.ofNat (0x10000 + (h - 0xD800) * 0x400 + (l - 0xDC00)) :: joinHalves rest
    else '\ufffd' :: joinHalves (.inr l :: rest)
  | .inr _ :: rest => '\ufffd' :: joinHalves rest

/-- Reads the characters of a text up to its closing quote. A half of a character is kept as its
number. -/
def quotedChars : (fuel : Nat) → List (Char ⊕ Nat) → Reading (List (Char ⊕ Nat))
  | 0, _ => throw .unexpectedEnd
  | fuel + 1, done => do
    match ← get with
    | [] => throw .unexpectedEnd
    | '"' :: cs => do set cs; return done
    | '\\' :: 'u' :: cs => do
      set cs
      let n ← hex4
      quotedChars fuel (done ++
        [if 0xD800 ≤ n && n < 0xE000 then .inr n else .inl (Char.ofNat n)])
    | '\\' :: cs => do
      set cs
      match cs with
      | [] => throw .unexpectedEnd
      | e :: cs =>
        match escape? e with
        | some c => do set cs; quotedChars fuel (done ++ [.inl c])
        | none => refuse "in string escape code"
    | c :: cs =>
      if c < ' ' then refuse "in string literal"
      else do set cs; quotedChars fuel (done ++ [.inl c])

/-- Reads a text behind its opening quote. -/
def quotedText : Reading String := do
  let units ← quotedChars ((← get).length + 1) []
  return String.ofList (joinHalves units)

/-- Reads digits; there must be one. -/
def digits (place : String) : Reading (List Char) := do
  let cs ← get
  let ds := cs.takeWhile Char.isDigit
  if ds.isEmpty then refuse place
  set (cs.drop ds.length)
  return ds

/-- Reads a number. -/
def number : Reading Setting := do
  let start ← get
  let negative := start.head? = some '-'
  if negative then set start.tail
  let whole ← (do
    match ← get with
    | '0' :: cs => do set cs; return ['0']
    | _ => digits "in numeric literal" : Reading (List Char))
  let part ← (do
    match ← get with
    | '.' :: cs => do set cs; digits "after decimal point in numeric literal"
    | _ => return [] : Reading (List Char))
  let exp ← (do
    match ← get with
    | e :: cs =>
      if e = 'e' || e = 'E' then
        let (_, negative, rest) := Yaml.splitSign cs
        set rest
        let ds ← digits "in exponent of numeric literal"
        let n := (Yaml.digits? 10 ds).getD 0
        return if negative then -(n : Int) else n
      else return 0
    | [] => return 0 : Reading Int)
  let n := (Yaml.digits? 10 (whole ++ part)).getD 0
  match Double.ofDecimal negative n (exp - part.length) with
  | .infinite _ =>
    let text := start.take (start.length - (← get).length)
    throw (.badNumber (String.ofList text))
  | x => return .float x

/-- Reads the rest of a word. -/
def word (name : String) (v : Setting) : List Char → Reading Setting
  | [] => return v
  | c :: cs => do
    match ← get with
    | [] => throw .unexpectedEnd
    | d :: ds =>
      if d = c then do set ds; word name v cs
      else refuse ("in literal " ++ name ++ " (expecting '" ++ String.ofList [c] ++ "')")

/-! ## 3. Values -/

mutual

/-- Reads a value. -/
def value : (fuel : Nat) → Reading Setting
  | 0 => throw .unexpectedEnd
  | fuel + 1 => do
    blanks
    match ← get with
    | '\x7b' :: cs => do set cs; .table <$> members fuel true []
    | '[' :: cs => do set cs; .list <$> elements fuel true []
    | '"' :: cs => do set cs; .text <$> quotedText
    | 't' :: cs => do set cs; word "true" (.bool true) "rue".toList
    | 'f' :: cs => do set cs; word "false" (.bool false) "alse".toList
    | 'n' :: cs => do set cs; word "null" .null "ull".toList
    | c :: _ =>
      if c = '-' || c.isDigit then number else refuse "looking for beginning of value"
    | [] => throw .unexpectedEnd

/-- Reads the entries of a table and its closing brace. -/
def members : (fuel : Nat) → (first : Bool) → List (String × Setting) →
    Reading (List (String × Setting))
  | 0, _, _ => throw .unexpectedEnd
  | fuel + 1, first, done => do
    blanks
    match ← get with
    | '"' :: cs =>
      set cs
      let name ← quotedText
      blanks
      match ← get with
      | ':' :: cs => set cs
      | _ => refuse "after object key"
      let v ← value fuel
      let done := done ++ [(name, v)]
      blanks
      match ← get with
      | ',' :: cs => do set cs; members fuel false done
      | '\x7d' :: cs => do set cs; return Setting.tableOf done
      | _ => refuse "after object key:value pair"
    | '\x7d' :: cs =>
      if first then do set cs; return []
      else refuse "looking for beginning of object key string"
    | _ => refuse "looking for beginning of object key string"

/-- Reads the elements of a list and its closing bracket. -/
def elements : (fuel : Nat) → (first : Bool) → List Setting → Reading (List Setting)
  | 0, _, _ => throw .unexpectedEnd
  | fuel + 1, first, done => do
    blanks
    if first && (← get).head? = some ']' then
      modify List.tail
      return []
    let v ← value fuel
    let done := done ++ [v]
    blanks
    match ← get with
    | ',' :: cs => do set cs; elements fuel false done
    | ']' :: cs => do set cs; return done
    | _ => refuse "after array element"

end

/-- What a value that is no table is called. -/
def kindName : Setting → String
  | .bool _ => "bool"
  | .text _ => "string"
  | .list _ => "array"
  | _ => "number"

/-- Reads a table of settings; nothing is an empty one. -/
def parse (text : String) : Except Error (List (String × Setting)) := do
  let cs := text.toList
  let (v, rest) ← (do let v ← value (cs.length + 2); blanks; return v : Reading Setting).run cs
  let _ ← (if rest.isEmpty then return () else refuse "after top-level value" : Reading Unit).run rest
  match v with
  | .table t => return t
  | .null => return []
  | v => throw (.notTable (kindName v))

end Lasso.Config.Json
