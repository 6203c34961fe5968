import Lasso.Display
/-!
# Location vectors

The location of a system of programs lists the location of each program. It is kept packed, each
element with its length in front, so that two vectors are equal when their bytes are. Elements may be
any bytes; locations are texts, and stand in a vector by their UTF-8 bytes.

* `push`, `ofBytes` and `toList` treat the elements as bytes;
* `append`, `ofList` and `elements` treat them as texts.
-/

namespace Lasso

/-- A list of locations, in packed form. -/
structure LocationVector where
  packed : Bytes
  deriving DecidableEq, Hashable

namespace LocationVector

/-- The vector without elements. -/
def empty : LocationVector := ⟨[]⟩

instance : EmptyCollection LocationVector := ⟨empty⟩
instance : Inhabited LocationVector := ⟨empty⟩

/-- Puts an element behind the others. -/
def push (v : LocationVector) (b : Bytes) : LocationVector := ⟨v.packed ++ encodeBytes b⟩

/-- The vector of the elements of a list. -/
def ofBytes (bs : List Bytes) : LocationVector := bs.foldl push ∅

theorem length_lt_of_readBytes? {b l rest : Bytes} (h : readBytes? b = some (l, rest)) :
    rest.length < b.length := by
  have := length_of_readBytes? h
  omega

/-- Reads the elements out of a packed vector. -/
def unpack? (b : Bytes) : Option (List Bytes) := readAll? readBytes? length_lt_of_readBytes? b

/-- The elements of the vector, each as its bytes. -/
def toList (v : LocationVector) : List Bytes := (unpack? v.packed).getD []

/-- Puts a location behind the others. -/
def append (v : LocationVector) (l : String) : LocationVector := v.push (.ofString l)

/-- The vector of the locations of a list. -/
def ofList (ls : List String) : LocationVector := ls.foldl append ∅

/-- The locations in the vector. -/
def elements (v : LocationVector) : List String := v.toList.map Bytes.text

/-- The number of elements. -/
def size (v : LocationVector) : Nat := v.elements.length

instance : Display LocationVector where
  text v := "[" ++ ", ".intercalate v.elements ++ "]"
  parts v := v.elements

end LocationVector

end Lasso
