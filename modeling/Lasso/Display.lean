import Lasso.Env
/-!
# How things are shown

States, actions and propositions are of any type; what reports need of them is a text. A thing that
is put together from others also has parts: the texts of the things it is made of, from left to
right.
-/

namespace Lasso

/-- Things with a text. -/
class Display (α : Type) where
  text : α → String
  /-- The texts of the things that it is made of. -/
  parts : α → List String := fun a => [text a]
  /-- The bytes of the text, which need not be UTF-8. -/
  bytes : α → Bytes := fun a => .ofString (text a)

instance : Display String where
  text s := s

instance : Display Bytes where
  text := Bytes.text
  bytes b := b

instance : Display Int where
  text n := toString n

instance : Display Value where
  text := Value.text

instance : Display Env where
  text := Env.text

/-- Texts between braces, parted by commas. -/
def braced (texts : List String) : String := "\x7b" ++ ", ".intercalate texts ++ "\x7d"

end Lasso
