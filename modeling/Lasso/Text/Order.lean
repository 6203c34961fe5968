import Lasso.Bytes
/-!
# The order of names

Names are ordered by their bytes, which is also the order of their characters. A table keeps its
names in this order, each of them once.
-/

namespace Lasso

/-- The bytewise order of names. -/
def nameLt (a b : String) : Bool := (Bytes.ofString a).lt (.ofString b)

/-- Names from the least to the greatest. -/
def sortNames (names : List String) : List String :=
  names.mergeSort fun a b => !nameLt b a

/-- Puts an entry into a table in bytewise order; one with the same name is replaced. -/
def putSorted {α : Type} (name : String) (a : α) : List (String × α) → List (String × α)
  | [] => [(name, a)]
  | (n, b) :: rest =>
    if n = name then (name, a) :: rest
    else if nameLt name n then (name, a) :: (n, b) :: rest
    else (n, b) :: putSorted name a rest

/-- A table in bytewise order of its names, in which the last entry for a name counts. -/
def sortedTable {α : Type} (entries : List (String × α)) : List (String × α) :=
  entries.foldl (fun t e => putSorted e.1 e.2 t) []

end Lasso
