import Lasso.Bytes
import Lasso.Text.Printable
/-!
# Quoted text

The quoted form of a byte string stands between double quotes. A quote and a backslash are preceded
by a backslash, printable characters stand for themselves, the usual control characters have a
letter, and everything else is written with its number in hexadecimal: two digits for a control
character below U+0080 and for a stray byte, four or eight digits for other characters.

Main definition: `quote`.
-/

namespace Lasso.Text

/-- The number in lower-case hexadecimal with at least `width` digits. -/
def hex (width n : Nat) : List Char :=
  let digits := Nat.toDigits 16 n
  List.replicate (width - digits.length) '0' ++ digits

/-- The letter that names a control character behind a backslash. -/
def controlLetter? (c : Char) : Option Char :=
  match c.toNat with
  | 0x07 => some 'a'
  | 0x08 => some 'b'
  | 0x0c => some 'f'
  | 0x0a => some 'n'
  | 0x0d => some 'r'
  | 0x09 => some 't'
  | 0x0b => some 'v'
  | _ => none

/-- A character inside quotes. -/
def quoteChar (c : Char) : List Char :=
  if c = '"' ∨ c = '\\' then ['\\', c]
  else if isPrintable c then [c]
  else match controlLetter? c with
    | some l => ['\\', l]
    | none =>
      if c.toNat < 0x20 ∨ c.toNat = 0x7f then '\\' :: 'x' :: hex 2 c.toNat
      else if c.toNat < 0x10000 then '\\' :: 'u' :: hex 4 c.toNat
      else '\\' :: 'U' :: hex 8 c.toNat

/-- One position of a byte string inside quotes. -/
def quoteUnit : Bytes.Unit → List Char
  | .char c => quoteChar c
  | .byte b => '\\' :: 'x' :: hex 2 b.toNat

/-- The quoted form of a byte string. -/
def quoteBytes (b : Bytes) : String :=
  String.ofList ('"' :: b.units.flatMap quoteUnit ++ ['"'])

/-- The quoted form of a text. -/
def quote (s : String) : String := quoteBytes (.ofString s)

end Lasso.Text
