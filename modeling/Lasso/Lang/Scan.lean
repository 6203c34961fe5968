import Lasso.Lang.Token
import Lasso.Number.Word64
import Lasso.Text.Letter
/-!
# Reading tokens

`scan` splits a text into tokens or refuses it. The rules:

* blanks separate tokens; a line break behind a token that can end a statement is a semicolon
  (`Token.semi true`), and so is the end of the text;
* comments run from two slashes to the end of the line, or between a slash with a star and a star
  with a slash; a comment over several lines counts as a line break;
* a comment may set line numbers (`line name:12` at the start of a line); one with a bad number is
  refused (`badDirective`);
* numbers, characters and strings follow the usual forms, with digit separators and escapes;
* of the operators the longest one that fits is taken;
* a NUL character or a byte order mark is refused everywhere, but for a mark at the very start.
-/

namespace Lasso.Lang

open Lasso.Text

/-! ## 1. Numbers -/

/-- Whether a character is an ASCII decimal digit. -/
def isDecimal (c : Char) : Bool := '0' ≤ c && c ≤ '9'

/-- The value of a hexadecimal digit. -/
def hexValue? (c : Char) : Option Nat :=
  if '0' ≤ c ∧ c ≤ '9' then some (c.toNat - '0'.toNat)
  else if 'a' ≤ c ∧ c ≤ 'f' then some (c.toNat - 'a'.toNat + 10)
  else if 'A' ≤ c ∧ c ≤ 'F' then some (c.toNat - 'A'.toNat + 10)
  else none

/-- The base that the first characters of a number announce. -/
inductive Radix where
  | decimal
  /-- A leading zero without a letter. -/
  | zero
  | hex
  | octal
  | binary
  deriving DecidableEq, Repr

/-- The radix of a number and how many characters announce it. -/
def Radix.ofStart : List Char → Radix × Nat
  | '0' :: c :: _ =>
    if c = 'x' ∨ c = 'X' then (.hex, 2)
    else if c = 'o' ∨ c = 'O' then (.octal, 2)
    else if c = 'b' ∨ c = 'B' then (.binary, 2)
    else (.zero, 1)
  | '0' :: _ => (.zero, 1)
  | _ => (.decimal, 0)

/-- The least decimal digit that an integer of the radix may not have. -/
def Radix.bound : Radix → Nat
  | .decimal | .hex => 10
  | .zero | .octal => 8
  | .binary => 2

/-- A run of digits and separators. -/
def digitRun (hex : Bool) (cs : List Char) : List Char :=
  cs.takeWhile fun c => isDecimal c || c == '_' || hex && (hexValue? c).isSome

/-- Whether each separator stands between two digits; the announcement of the base counts as a
digit. -/
def separatorsOk (text : List Char) : Bool :=
  let (radix, n) := Radix.ofStart text
  if radix = .hex ∨ radix = .octal ∨ radix = .binary then go (radix = .hex) true (text.drop n)
  else go false false text
where
  /-- `digit` tells whether a digit came just before. -/
  go (hex digit : Bool) : List Char → Bool
    | [] => true
    | '_' :: c :: rest =>
      digit && (isDecimal c || hex && (hexValue? c).isSome) && go hex true rest
    | ['_'] => false
    | c :: rest => go hex (isDecimal c || hex && (hexValue? c).isSome) rest

/-- The length of a sign, if one stands here. -/
def signLength : List Char → Nat
  | '+' :: _ | '-' :: _ => 1
  | _ => 0

/-- The exponent of a number: its length, if there is one. -/
def exponent? (radix : Radix) (cs : List Char) : Option (Option Nat) :=
  match cs with
  | [] => some none
  | e :: rest =>
    let isE := e = 'e' ∨ e = 'E'
    let isP := e = 'p' ∨ e = 'P'
    if ¬ isE ∧ ¬ isP then some none
    else if isE ∧ (radix = .hex ∨ radix = .octal ∨ radix = .binary) then none
    else if isP ∧ radix ≠ .hex then none
    else
      let sign := signLength rest
      let digits := digitRun false (rest.drop sign)
      if digits.any isDecimal then some (some (1 + sign + digits.length)) else none

/-- A number up to its exponent. -/
structure Mantissa where
  /-- The digits and separators before the point. -/
  whole : List Char
  /-- Those behind the point, if there is one. -/
  frac : Option (List Char)
  deriving DecidableEq, Repr

/-- The number of characters, with those that announce the base. -/
def Mantissa.length (start : Nat) (m : Mantissa) : Nat :=
  start + m.whole.length + (m.frac.elim 0 fun f => 1 + f.length)

/-- The mantissa of a number behind the characters that announce its base. -/
def mantissa? (radix : Radix) (cs : List Char) : Option Mantissa :=
  let whole := digitRun (radix = .hex) cs
  match cs.drop whole.length with
  | '.' :: rest =>
    if radix = .octal ∨ radix = .binary then none
    else some ⟨whole, some (digitRun (radix = .hex) rest)⟩
  | _ => some ⟨whole, none⟩

/-- Whether the parts of a number go together: it has a digit, a hexadecimal fraction has an exponent,
an integer has digits of its base only, and each separator of its text stands between digits. -/
def numberOk (radix : Radix) (m : Mantissa) (exp : Option Nat) (isInt : Bool) (text : List Char) :
    Bool :=
  (radix = .zero || (m.whole ++ m.frac.getD []).any (· ≠ '_')) &&
  !(radix = .hex && m.frac.isSome && exp.isNone) &&
  !(isInt && radix ≠ .hex &&
    m.whole.any fun c => c ≠ '_' && radix.bound ≤ c.toNat - '0'.toNat) &&
  !(text.any (· = '_') && !separatorsOk text)

/-- A number: its length, and whether it is an integer. -/
def number? (cs : List Char) : Option (Nat × Bool) := do
  let (radix, start) := Radix.ofStart cs
  let m ← mantissa? radix (cs.drop start)
  let exp ← exponent? radix (cs.drop (m.length start))
  let n := m.length start + exp.getD 0
  let imaginary := (cs.drop n).head? = some 'i'
  let n := if imaginary then n + 1 else n
  let isInt := m.frac.isNone && exp.isNone && !imaginary
  if numberOk radix m exp isInt (cs.take n) then some (n, isInt) else none

/-! ## 2. Strings and characters -/

/-- The number of a run of exactly `n` digits in a base up to sixteen. -/
def fixedDigits? (base : Nat) : Nat → List Char → Option Nat
  | n, cs =>
    let ds := cs.take n
    if ds.length < n then none
    else ds.foldlM (fun acc c => do
      let d ← hexValue? c
      if d < base then some (acc * base + d) else none) 0

/-- The UTF-8 bytes of a code point that is a character. -/
def codePoint? (n : Nat) : Option Bytes :=
  if h : n.isValidChar then some (String.utf8EncodeChar (Char.ofNatAux n h)) else none

/-- What an escape of a single character stands for. -/
def plainEscape? (quote c : Char) : Option Bytes :=
  if c = quote ∨ c = '\\' then some (String.utf8EncodeChar c)
  else if c = 'a' then some [0x07]
  else if c = 'b' then some [0x08]
  else if c = 'f' then some [0x0c]
  else if c = 'n' then some [0x0a]
  else if c = 'r' then some [0x0d]
  else if c = 't' then some [0x09]
  else if c = 'v' then some [0x0b]
  else none

/-- An escape behind its backslash: the bytes that it stands for and its length. -/
def escape? (quote : Char) : List Char → Option (Bytes × Nat)
  | [] => none
  | c :: rest =>
    match plainEscape? quote c with
    | some b => some (b, 1)
    | none =>
      if '0' ≤ c ∧ c ≤ '7' then do
        let n ← fixedDigits? 8 3 (c :: rest)
        if n < 256 then some ([n.toUInt8], 3) else none
      else if c = 'x' then do
        let n ← fixedDigits? 16 2 rest
        some ([n.toUInt8], 3)
      else if c = 'u' then do
        let b ← codePoint? (← fixedDigits? 16 4 rest)
        some (b, 5)
      else if c = 'U' then do
        let b ← codePoint? (← fixedDigits? 16 8 rest)
        some (b, 9)
      else none

/-- The characters of a literal behind its opening quote: the bytes of each, and the length up to
and with the closing quote. A literal does not go over the end of a line. -/
def quoted? (quote : Char) (cs : List Char) : Option (List Bytes × Nat) :=
  match cs with
  | [] => none
  | c :: rest =>
    if c = '\n' then none
    else if c = quote then some ([], 1)
    else if c = '\\' then do
      let (b, n) ← escape? quote rest
      let (bs, m) ← quoted? quote (rest.drop n)
      return (b :: bs, 1 + n + m)
    else do
      let (bs, m) ← quoted? quote rest
      return (String.utf8EncodeChar c :: bs, 1 + m)
termination_by cs.length
decreasing_by
  · simp only [List.length_drop, List.length_cons]
    omega
  · simp

/-! ## 3. Comments -/

/-- The length of a block comment behind its opening, with its closing. -/
def blockLength? : List Char → Option Nat
  | [] => none
  | '*' :: '/' :: _ => some 2
  | _ :: rest => (blockLength? rest).map (· + 1)

/-- What stands behind the last colon, as a number of 64 bits if it is one, and what stands
before the colon; nothing without a colon. -/
def lastNumber? (text : List Char) : Option (List Char × Option Nat) :=
  let tail := (text.reverse.takeWhile (· ≠ ':')).reverse
  if tail.length = text.length then none
  else
    let n := tail.foldl (fun acc c => acc * 10 + (c.toNat - '0'.toNat)) 0
    let ok := !tail.isEmpty && tail.all isDecimal && n < Word64.count
    some (text.take (text.length - tail.length - 1), if ok then some n else none)

/-- Whether a line or column number is out of bounds. -/
def badLineNumber (n : Nat) : Bool := n = 0 || (1073741824 < n && n < Word64.limit)

/-- Whether a comment's text asks for a line number that cannot be. -/
def badDirective (comment : List Char) : Bool :=
  match comment with
  | 'l' :: 'i' :: 'n' :: 'e' :: ' ' :: text =>
    match lastNumber? text with
    | none => false
    | some (_, none) => true
    | some (before, some n) =>
      match lastNumber? before with
      | some (_, some line) => badLineNumber n || badLineNumber line
      | _ => badLineNumber n
  | _ => false

/-! ## 4. Tokens -/

/-- What the text before a position says about it. -/
structure Place where
  /-- A line break here ends a statement. -/
  ends : Bool
  /-- The position is the first of its line. -/
  fresh : Bool
  deriving DecidableEq, Repr

/-- What one step reads: tokens, the place behind them, and the number of characters beyond the
first. -/
structure Lexeme where
  tokens : List Token
  place : Place
  extra : Nat
  deriving Repr

/-- A single token of `extra + 1` characters. -/
def Lexeme.one (t : Token) (ends : Bool) (extra : Nat) : Lexeme := ⟨[t], ⟨ends, false⟩, extra⟩

/-- A name or a key word. -/
def wordToken (s : String) : Token × Bool :=
  match Word.all.find? (·.text = s) with
  | some w => (.word w, w.endsStatement)
  | none => (.name s, true)

/-- What a text starts with, by its first two characters. -/
inductive Start where
  | blank
  | lineBreak
  | lineComment
  | blockComment
  | word
  | number
  | string
  | character
  | raw
  | semicolon
  | operator
  deriving DecidableEq, Repr

/-- What starts with the character `c` when `next` follows it. -/
def Start.of (c : Char) (next : Option Char) : Start :=
  if c = ' ' ∨ c = '\t' ∨ c = '\r' then .blank
  else if c = '\n' then .lineBreak
  else if c = '/' ∧ next = some '/' then .lineComment
  else if c = '/' ∧ next = some '*' then .blockComment
  else if isLetter c then .word
  else if isDecimal c ∨ (c = '.' ∧ next.any isDecimal) then .number
  else if c = '"' then .string
  else if c = '\'' then .character
  else if c = '\x60' then .raw
  else if c = ';' then .semicolon
  else .operator

/-- A comment up to the end of the line; `cs` follows its two slashes. -/
def lineComment? (p : Place) (cs : List Char) : Option Lexeme :=
  let body := cs.takeWhile (· ≠ '\n')
  let text := if body.getLast? = some '\r' then body.dropLast else body
  if p.fresh && badDirective text then none
  else some ⟨[], ⟨p.ends, false⟩, 1 + body.length⟩

/-- A comment with an end of its own; `cs` follows its opening. -/
def blockComment? (p : Place) (cs : List Char) : Option Lexeme := do
  let n ← blockLength? cs
  if badDirective (cs.take (n - 2)) then none
  else if p.ends && (cs.take n).any (· = '\n') then some ⟨[.semi true], ⟨false, false⟩, 1 + n⟩
  else some ⟨[], ⟨p.ends, false⟩, 1 + n⟩

/-- A string between back quotes, behind the first one. -/
def rawString? (cs : List Char) : Option Lexeme :=
  let body := cs.takeWhile (· ≠ '\x60')
  if body.length = cs.length then none
  else
    let value := (body.filter (· ≠ '\r')).flatMap String.utf8EncodeChar
    some (.one (.str value) true (body.length + 1))

/-- The longest operator that the text starts with. -/
def operator? (cs : List Char) : Option Op :=
  Op.all.find? fun o => o.text.toList.isPrefixOf cs

/-- Reads what starts with the character `c`. -/
def lexeme? (p : Place) (c : Char) (cs : List Char) : Option Lexeme :=
  match Start.of c cs.head? with
  | .blank => some ⟨[], ⟨p.ends, false⟩, 0⟩
  | .lineBreak => some ⟨if p.ends then [.semi true] else [], ⟨false, true⟩, 0⟩
  | .lineComment => lineComment? p (cs.drop 1)
  | .blockComment => blockComment? p (cs.drop 1)
  | .word =>
    let more := cs.takeWhile isNameChar
    let (t, ends) := wordToken (.ofList (c :: more))
    some (.one t ends more.length)
  | .number => do
    let (n, isInt) ← number? (c :: cs)
    some (.one (if isInt then .int (.ofList ((c :: cs).take n)) else .literal) true (n - 1))
  | .string => do
    let (bs, n) ← quoted? '"' cs
    some (.one (.str bs.flatten) true n)
  | .character => do
    let (bs, n) ← quoted? '\'' cs
    if bs.length = 1 then some (.one .literal true n) else none
  | .raw => rawString? cs
  | .semicolon => some (.one (.semi false) false 0)
  | .operator => do
    let o ← operator? (c :: cs)
    some (.one (.op o) o.endsStatement (o.text.length - 1))

/-- The tokens from a place on. -/
def tokens? (p : Place) (cs : List Char) : Option (List Token) :=
  match cs with
  | [] => some (if p.ends then [.semi true] else [])
  | c :: rest => do
    let l ← lexeme? p c rest
    let ts ← tokens? l.place (rest.drop l.extra)
    return l.tokens ++ ts
termination_by cs.length
decreasing_by
  simp only [List.length_drop, List.length_cons]
  omega

/-- Characters that no text may hold. -/
def isForbidden (c : Char) : Bool := c = '\x00' || c = '\ufeff'

/-- The tokens of a piece of text that starts a line. -/
def scan? (cs : List Char) : Option (List Token) :=
  if cs.any isForbidden then none else tokens? ⟨false, true⟩ cs

/-- The tokens of a whole text, which may start with a byte order mark. -/
def scanText? : List Char → Option (List Token)
  | [] => some []
  | c :: rest =>
    if c = '\ufeff' then
      if rest.any isForbidden then none else tokens? ⟨false, false⟩ rest
    else scan? (c :: rest)

end Lasso.Lang
