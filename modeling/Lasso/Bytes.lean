/-!
# Byte strings

String values of programs are sequences of bytes: mostly UTF-8 text, but a program may build any
bytes. This file fixes

* the byte string of a text (`Bytes.ofString`) and the text of a byte string, when it is UTF-8
  (`Bytes.toString?`);
* the reading of arbitrary bytes as characters and stray bytes (`Bytes.units`): a byte that does not
  start a character stands for itself;
* the bytewise order (`Bytes.lt`), the order of string values and of names.
-/

namespace Lasso

/-- A sequence of bytes. -/
abbrev Bytes := List UInt8

namespace Bytes

/-! ## 1. Texts -/

/-- The UTF-8 bytes of a text. -/
def ofString (s : String) : Bytes := s.toByteArray.data.toList

/-- The text with these UTF-8 bytes. -/
def toString? (b : Bytes) : Option String := String.fromUTF8? ⟨b.toArray⟩

theorem toString?_ofString (s : String) : toString? (ofString s) = some s := by
  have h : (⟨(ofString s).toArray⟩ : ByteArray) = s.toByteArray := by simp [ofString]
  simp only [toString?, String.fromUTF8?, h]
  rw [dif_pos s.isValidUTF8]
  rfl

/-! ## 2. Characters and stray bytes -/

/-- One position of a byte string: a character, or a byte that is no part of one. -/
inductive Unit where
  | char (c : Char)
  | byte (b : UInt8)
  deriving Repr, DecidableEq

/-- The character that the byte string starts with. -/
def firstChar? (b : Bytes) : Option Char :=
  (ByteArray.mk (b.take 4).toArray).utf8DecodeChar? 0

/-- The byte string read from left to right. -/
def units (b : Bytes) : List Unit :=
  match b with
  | [] => []
  | x :: rest =>
    match firstChar? (x :: rest) with
    | some c => .char c :: units ((x :: rest).drop c.utf8Size)
    | none => .byte x :: units rest
termination_by b.length
decreasing_by
  · have := c.utf8Size_pos
    simp
    omega
  · simp

/-- The text of a byte string, with the replacement character for each stray byte. -/
def toStringLossy (b : Bytes) : String :=
  String.ofList <| b.units.map fun
    | .char c => c
    | .byte _ => '\ufffd'

/-- The text of a byte string; stray bytes are replaced only if it is not UTF-8. -/
def text (b : Bytes) : String := (toString? b).getD (toStringLossy b)

@[simp]
theorem text_ofString (s : String) : text (ofString s) = s := by
  simp [text, toString?_ofString]

/-! ## 3. Order -/

/-- The bytewise order: a proper beginning comes first, else the first different byte decides. -/
def lt : Bytes → Bytes → Bool
  | _, [] => false
  | [], _ :: _ => true
  | a :: as, b :: bs => a < b || (a == b && lt as bs)

end Bytes

end Lasso
