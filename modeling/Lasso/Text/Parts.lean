/-!
# Parts of texts

Paths and the names of nested settings are texts that a character divides.
-/

namespace Lasso.Text

/-- The parts of a text between the places where the character stands; one at least. -/
def parts (mark : Char) (s : String) : List String := (s.toList.splitOn mark).map String.ofList

end Lasso.Text
