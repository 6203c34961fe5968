/-!
# Bytes in letters

Four letters stand for three bytes. The last group is filled up with equals signs.

Main definition: `decodeBase64?`.
-/

namespace Lasso.Yaml

/-- The six bits that a letter stands for. -/
def sextet? (c : Char) : Option Nat :=
  if 'A' ≤ c && c ≤ 'Z' then some (c.toNat - 'A'.toNat)
  else if 'a' ≤ c && c ≤ 'z' then some (c.toNat - 'a'.toNat + 26)
  else if c.isDigit then some (c.toNat - '0'.toNat + 52)
  else if c = '+' then some 62
  else if c = '/' then some 63
  else none

/-- The bytes that groups of letters stand for. -/
def base64Groups? : List Char → Option (List UInt8)
  | [] => some []
  | [a, b, '=', '='] => do
    let n := (← sextet? a) * 64 + (← sextet? b)
    return [(n / 16).toUInt8]
  | [a, b, c, '='] => do
    let n := ((← sextet? a) * 64 + (← sextet? b)) * 64 + (← sextet? c)
    return [(n / 1024).toUInt8, (n / 4).toUInt8]
  | a :: b :: c :: d :: rest => do
    let n := (((← sextet? a) * 64 + (← sextet? b)) * 64 + (← sextet? c)) * 64 + (← sextet? d)
    return (n / 65536).toUInt8 :: (n / 256).toUInt8 :: n.toUInt8 :: (← base64Groups? rest)
  | _ => none

/-- The text that letters stand for; ends of lines do not count. -/
def decodeBase64? (text : String) : Option String := do
  let bytes ← base64Groups? (text.toList.filter fun c => c ≠ '\n' && c ≠ '\r')
  String.fromUTF8? ⟨bytes.toArray⟩

end Lasso.Yaml
