import Lasso.Yaml.Binary
import Lasso.Yaml.Node
/-!
# Reading nodes

How nodes become texts, numbers, lists, records and tables. A reader of a node has three answers: the
node cannot be read, it gives nothing, or it gives a value. What gives nothing leaves a field of a
record as it is, and is left out of a list.

* `Reader.text`, `Reader.int`, `Reader.bool` read scalars;
* `Reader.list`, `Reader.record`, `Reader.table` read collections, `Reader.optional` what may be
  missing;
* `entriesOf?` gives the entries of a mapping with what it merges.

Values are texts, so a `!!binary` scalar whose bytes are not UTF-8 cannot be read; and the number of nodes
that are read through aliases is not limited.
-/

namespace Lasso.Yaml

/-! ## 1. Scalars -/

/-- What a scalar means. -/
def scalarMeaning? (tag text : String) : Option Meaning :=
  if tag = "!!binary" then (decodeBase64? text).map Meaning.text else resolve? tag text

/-- The node that a node stands for; within itself an alias stands for none. -/
def Node.target? : Node → Option Node
  | .alias _ target? => target?
  | n => some n

/-- Reads a node: `none` if it cannot be read, `some none` if it gives nothing. -/
def Reader (α : Type) : Type := Node → Option (Option α)

namespace Reader

variable {α : Type}

/-- Reads a scalar by its meaning and its text. -/
def scalar (f : Meaning → String → Option α) : Reader α := fun n => do
  match ← n.target? with
  | .scalar tag text =>
    match ← scalarMeaning? tag text with
    | .null => some none
    | m => (f m text).map some
  | _ => none

/-- A text may be spelled like anything. -/
def text : Reader String := scalar fun
  | .text s, _ => some s
  | _, t => some t

/-- The whole number that another number is cut to. Numbers that are too small, and the first that
is too large, become the least. -/
def cutToInt : Double → Option Int
  | .nan => none
  | .infinite negative => if negative then some Word64.least else none
  | x => do
    let n ← x.truncate?
    if n > (Word64.limit : Int) then none
    else if Word64.fits n then some n
    else some Word64.least

/-- A whole number that fits into 64 bits with its sign. -/
def int : Reader Int := scalar fun
  | .int n, _ => if n < (Word64.limit : Int) then some n else none
  | .float x, _ => cutToInt x
  | _, _ => none

/-- A truth value; the words for yes and no count too. -/
def bool : Reader Bool := scalar fun
  | .bool b, _ => some b
  | .text s, _ =>
    if ["y", "Y", "yes", "Yes", "YES", "on", "On", "ON"].contains s then some true
    else if ["n", "N", "no", "No", "NO", "off", "Off", "OFF"].contains s then some false
    else none
  | _, _ => none

/-- Whether a node is a scalar that means nothing. -/
def isNull (n : Node) : Option Bool := do
  match ← n.target? with
  | .scalar tag text => return (← scalarMeaning? tag text) = .null
  | _ => return false

/-- What may be missing: a scalar that means nothing says so. -/
def optional (r : Reader α) : Reader (Option α) := fun n => do
  if ← isNull n then return some none
  return (← r n).map some

/-- A list; a scalar that means nothing is an empty one. -/
def list (r : Reader α) : Reader (List α) := fun n => do
  if ← isNull n then return some []
  match ← n.target? with
  | .sequence items => return some (← items.mapM r).reduceOption
  | _ => none

end Reader

/-! ## 2. Entries of mappings -/

mutual

/-- The number of nodes in a node. -/
def Node.size : Node → Nat
  | .scalar .. => 1
  | .sequence items => sizeItems items + 1
  | .mapping entries => sizeEntries entries + 1
  | .alias _ target? => sizeTarget target? + 1

def sizeItems : List Node → Nat
  | [] => 0
  | n :: rest => n.size + sizeItems rest

def sizeEntries : List (Node × Node) → Nat
  | [] => 0
  | (k, v) :: rest => k.size + v.size + sizeEntries rest

def sizeTarget : Option Node → Nat
  | none => 0
  | some n => n.size

end

/-- Whether two keys are written alike. Collections always are. -/
def Node.sameKey : Node → Node → Bool
  | .scalar _ s, .scalar _ t => s = t
  | .sequence _, .sequence _ => true
  | .mapping _, .mapping _ => true
  | .alias a _, .alias b _ => a = b
  | _, _ => false

/-- Whether no two keys are written alike. -/
def distinctKeys : List (Node × Node) → Bool
  | [] => true
  | (k, _) :: rest => !(rest.any fun e => k.sameKey e.1) && distinctKeys rest

/-- Whether a key asks to merge other mappings. -/
def Node.isMerge : Node → Bool
  | .scalar tag text => tag = "!!merge" && text = "<<"
  | _ => false

/-- The mappings that a node asks to merge: it is one, or a sequence of them. -/
def Node.sources? (n : Node) : Option (List (List (Node × Node))) :=
  let one (n : Node) : Option (List (Node × Node)) := do
    match ← n.target? with
    | .mapping entries => some entries
    | _ => none
  match n with
  | .sequence items => items.mapM one
  | n => (one n).map ([·])

/-- What a key means: its text if keys are texts. A key that means nothing is no text. -/
def Node.key? (asText : Bool) (n : Node) : Option (Option Meaning) := do
  if asText then return (← Reader.text n).map Meaning.text
  match ← n.target? with
  | .scalar tag text => (scalarMeaning? tag text).map some
  | _ => none

/-- The entries that a mapping writes itself, without those whose key is taken; each key that is
found is taken too. -/
def ownEntries? (asText : Bool) :
    Option (List Meaning) → List (Node × Node) → Option (List (Meaning × Node) × Option (List Meaning))
  | taken?, [] => some ([], taken?)
  | taken?, (k, v) :: rest => do
    if k.isMerge then ownEntries? asText taken? rest
    else
      match ← k.key? asText with
      | none => ownEntries? asText taken? rest
      | some m =>
        match taken? with
        | none => do
          let (es, taken?) ← ownEntries? asText none rest
          return ((m, v) :: es, taken?)
        | some taken =>
          if taken.contains m then ownEntries? asText taken? rest
          else do
            let (es, taken?) ← ownEntries? asText (some (m :: taken)) rest
            return ((m, v) :: es, taken?)

/-- The entries of a mapping and of the mappings that it merges. What it writes itself comes first,
and a key that is taken is not merged. Keys are compared by what they mean. -/
def mergedEntries? (asText unique : Bool) :
    (fuel : Nat) → Option (List Meaning) → List (Node × Node) →
      Option (List (Meaning × Node) × Option (List Meaning))
  | 0, _, _ => none
  | fuel + 1, taken?, entries => do
    if !distinctKeys entries then none
    let (own, taken?) ← ownEntries? asText taken? entries
    if unique && taken?.isNone && !(own.map Prod.fst).Nodup then none
    match entries.find? (·.1.isMerge) with
    | none => return (own, taken?)
    | some (_, v) =>
      let keys ← entries.mapM (·.1.key? false)
      let start := taken?.getD keys.reduceOption
      let (merged, taken) ← (← v.sources?).foldlM (fun (found, taken) es => do
        let (more, taken?) ← mergedEntries? asText unique fuel (some taken) es
        return (found ++ more, taken?.getD taken)) (([], start) : List (Meaning × Node) × List Meaning)
      return (own ++ merged, taken?.map fun _ => taken)

/-- The entries of a mapping with what it merges, in the order in which they count. No key may be
given twice; where `unique` is set, not even in two spellings. -/
def entriesOf? (asText unique : Bool) (entries : List (Node × Node)) : Option (List (Meaning × Node)) :=
  (mergedEntries? asText unique (sizeEntries entries + 1) none entries).map Prod.fst

/-! ## 3. Records and tables -/

namespace Reader

variable {α σ : Type}

/-- How a node changes a field of a record. -/
def Field (σ : Type) : Type := Node → σ → Option σ

/-- The field that a reader fills. -/
def field (r : Reader α) (put : α → σ → σ) : Field σ := fun n s => do
  match ← r n with
  | some a => return put a s
  | none => return s

/-- A record with named fields. A name that is not known is refused where names are `strict`. -/
def record (strict : Bool) (start : σ) (fields : List (String × Field σ)) : Reader σ := fun n => do
  if ← isNull n then return none
  match ← n.target? with
  | .mapping entries =>
    let es ← entriesOf? true true entries
    some <$> es.foldlM (fun s (k, v) =>
      match k with
      | .text name =>
        match fields.lookup name with
        | some f => f v s
        | none => if strict then none else some s
      | _ => none) start
  | _ => none

/-- A table from texts to values, with the values in the order in which they count. -/
def table (r : Reader α) : Reader (List (String × α)) := fun n => do
  if ← isNull n then return some []
  match ← n.target? with
  | .mapping entries =>
    let es ← entriesOf? true false entries
    let read ← es.mapM fun (k, v) => do
      match k with
      | .text name => return (← r v).map (name, ·)
      | _ => none
    return some read.reduceOption
  | _ => none

end Reader

end Lasso.Yaml
