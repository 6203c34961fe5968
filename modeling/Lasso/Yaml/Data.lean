import Lasso.Yaml.Reader
/-!
# Data of documents

What a document holds when nothing is known about it: scalars, lists and maps.

Main definition: `Data.ofMapping?`.
-/

namespace Lasso.Yaml

inductive Data where
  | scalar (m : Meaning)
  | list (items : List Data)
  | map (entries : List (Meaning × Data))
  deriving Inhabited

/-- Whether all keys of a mapping are texts. -/
def hasTextKeys (entries : List (Node × Node)) : Bool :=
  entries.all fun (k, _) =>
    match k.target? with
    | some (.scalar tag _) => tag = "!!str" || tag = "!!merge"
    | _ => false

/-- Puts an entry into a map; one with the same key is replaced. -/
def putEntry (k : Meaning) (d : Data) : List (Meaning × Data) → List (Meaning × Data)
  | [] => [(k, d)]
  | (l, e) :: rest => if l = k then (k, d) :: rest else (l, e) :: putEntry k d rest

mutual

/-- Reads the data of a node. -/
def Data.read? : (fuel : Nat) → Node → Option Data
  | 0, _ => none
  | fuel + 1, n => do
    match ← n.target? with
    | .scalar tag text => return .scalar (← scalarMeaning? tag text)
    | .sequence items => return .list (← items.mapM (Data.read? fuel))
    | .mapping entries => return .map (← Data.readMap? fuel (hasTextKeys entries) entries)
    | .alias .. => none

/-- Reads the entries of a mapping. -/
def Data.readMap? : (fuel : Nat) → (asText : Bool) → List (Node × Node) → Option (List (Meaning × Data))
  | 0, _, _ => none
  | fuel + 1, asText, entries => do
    let es ← entriesOf? asText false entries
    es.foldlM (fun map (k, v) => do return putEntry k (← Data.read? fuel v) map) []

end

/-- The entries of a mapping whose keys are all read as texts. -/
def Data.ofMapping? (n : Node) : Option (List (String × Data)) := do
  match ← n.target? with
  | .mapping entries =>
    let map ← Data.readMap? (2 * n.size + 2) true entries
    map.mapM fun (k, d) =>
      match k with
      | .text s => some (s, d)
      | _ => none
  | .scalar tag text => if (← scalarMeaning? tag text) = .null then some [] else none
  | _ => none

end Lasso.Yaml
