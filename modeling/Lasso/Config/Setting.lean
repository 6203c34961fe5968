import Lasso.Yaml.Data
/-!
# Settings

What a configuration file holds: values and tables of values. The names in tables are in lower case.

* `Setting.ofData` reads settings from a document;
* `Setting.leaves` are the names of the values in a table, with those of the tables around them.
-/

namespace Lasso

inductive Setting where
  | null
  | bool (b : Bool)
  | int (n : Int)
  | float (x : Double)
  | text (s : String)
  | time
  | list (items : List Setting)
  | table (entries : List (String × Setting))
  deriving Inhabited

namespace Setting

/-- A name in lower case. -/
def lower (name : String) : String := name.map Char.toLower

/-- Puts a value into a table; one with the same name is replaced. -/
def put (name : String) (v : Setting) : List (String × Setting) → List (String × Setting)
  | [] => [(name, v)]
  | (n, w) :: rest => if n = name then (name, v) :: rest else (n, w) :: put name v rest

/-- A table of which later entries count more than earlier ones. -/
def tableOf (entries : List (String × Setting)) : List (String × Setting) :=
  entries.foldl (fun t e => put (lower e.1) e.2 t) []

/-! ## 1. From documents -/

/-- The name that a key stands for. -/
def keyText : Yaml.Meaning → String
  | .null => ""
  | .bool b => toString b
  | .int n => toString n
  | .float x => x.text
  | .time => ""
  | .text s => s

mutual

/-- The settings of a document. -/
def ofData : Yaml.Data → Setting
  | .scalar .null => .null
  | .scalar (.bool b) => .bool b
  | .scalar (.int n) => .int n
  | .scalar (.float x) => .float x
  | .scalar .time => .time
  | .scalar (.text s) => .text s
  | .list items => .list (ofItems items)
  | .map entries => .table (tableOf (ofEntries entries))

def ofItems : List Yaml.Data → List Setting
  | [] => []
  | d :: rest => ofData d :: ofItems rest

def ofEntries : List (Yaml.Meaning × Yaml.Data) → List (String × Setting)
  | [] => []
  | (k, d) :: rest => (keyText k, ofData d) :: ofEntries rest

end

/-! ## 2. Tables -/

/-- The value in a table under a name; a value that is nothing is none. -/
def find? (name : String) (t : List (String × Setting)) : Option Setting :=
  match t.lookup name with
  | some .null | none => none
  | some v => some v

/-- The value under a path of names. -/
def search? : List (String × Setting) → List String → Option Setting
  | t, [] => some (.table t)
  | t, [n] => find? n t
  | t, n :: rest =>
    match find? n t with
    | some (.table u) => search? u rest
    | _ => none

/-- The names in front of a path, joined by points, each with the rest of the path; the longest comes
first. -/
def splits (path : List String) : List (String × List String) :=
  (List.range path.length).reverse.map fun i =>
    (".".intercalate (path.take (i + 1)), path.drop (i + 1))

/-- The value under a path of names, where a name in a table may stand for several names of the
path. -/
def searchJoined? : (fuel : Nat) → List (String × Setting) → List String → Option Setting
  | 0, _, _ => none
  | fuel + 1, t, path =>
    (splits path).findSome? fun (name, rest) =>
      match find? name t with
      | none => none
      | some v =>
        if rest.isEmpty then some v
        else
          match v with
          | .table u => searchJoined? fuel u rest
          | _ => none

/-- Whether a value stands in the way of a path. -/
def hides (t : List (String × Setting)) (path : List String) : Bool :=
  (List.range path.length).any fun i =>
    i > 0 && match search? t (path.take i) with
      | none | some (.table _) => false
      | some _ => true

mutual

/-- Adds the paths of all values in a table to the paths that are known. A table below a known path
does not count. -/
def leaves (above : String) (known : List String) : List (String × Setting) → List String
  | [] => known
  | (n, v) :: rest =>
    let path := if above.isEmpty then n else above ++ "." ++ n
    leaves above (leavesAt path known v) rest

def leavesAt (path : String) (known : List String) : Setting → List String
  | .table t => if known.contains path then known else leaves path known t
  | _ => if known.contains path then known else known ++ [path]

end

/-- Puts a value under a path of names, and makes the tables that it needs. -/
def putAt (v : Setting) : List String → List (String × Setting) → List (String × Setting)
  | [], t => t
  | [n], t => put n v t
  | n :: rest, t =>
    let u := match t.lookup n with
      | some (.table u) => u
      | _ => []
    put n (.table (putAt v rest u)) t

end Setting

end Lasso
