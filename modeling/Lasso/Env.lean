import Lasso.Text.Order
import Lasso.Value.Basic
/-!
# Environments

An environment gives values to names. It is kept packed: the entries one after the other in the
bytewise order of their names, each the name with its length followed by the value. The order makes
the packed form canonical, so that two environments with the same entries are the same bytes. Names
may be any bytes; the names of variables are texts, and stand in an environment by their UTF-8 bytes.

* `Env.bindings` is the view as a list of names and values, `Env.ofSorted` its inverse;
* `find?`, `put` and `remove` are the operations of a finite map; `get?`, `set`, `erase` and
  `entries` are the same for names that are texts;
* `Env.equations` lists the entries as `name = value`, and `Env.entryTexts` the texts of these, by which
  properties speak of variables.
-/

namespace Lasso

/-- A finite map from names to values, in packed form. -/
structure Env where
  packed : Bytes
  deriving DecidableEq, Hashable

namespace Env

/-! ## 1. Entries -/

/-- The packed form of one entry. -/
def encodeEntry (name : Bytes) (v : Value) : Bytes := encodeBytes name ++ v.encode

/-- Reads one entry and returns what follows it. -/
def decodeEntry? (b : Bytes) : Option ((Bytes × Value) × Bytes) := do
  let (name, rest) ← readBytes? b
  let (v, rest) ← Value.decode? rest
  return ((name, v), rest)

theorem length_of_decodeEntry? {b rest : Bytes} {x : Bytes × Value}
    (h : decodeEntry? b = some (x, rest)) : rest.length < b.length := by
  unfold decodeEntry? at h
  match hn : readBytes? b with
  | none => simp [hn] at h
  | some (n, r) =>
    match hv : Value.decode? r with
    | none => simp [hn, hv] at h
    | some (v, r') =>
      simp only [hn, hv, Option.bind_eq_bind, Option.bind_some, Option.pure_def, Option.some.injEq,
        Prod.mk.injEq] at h
      have := length_of_readBytes? hn
      have := Value.weight_of_decode? hv
      obtain ⟨-, rfl⟩ := h
      omega

/-- Reads entries up to the end; nothing when the bytes are not a sequence of entries. -/
def unpack? (b : Bytes) : Option (List (Bytes × Value)) :=
  readAll? decodeEntry? length_of_decodeEntry? b

/-- The names with their values, in the order of the names. -/
def bindings (e : Env) : List (Bytes × Value) := (unpack? e.packed).getD []

/-- The environment with these entries, which are in the order of their names. -/
def ofSorted (xs : List (Bytes × Value)) : Env :=
  ⟨xs.flatMap fun (name, v) => encodeEntry name v⟩

/-! ## 2. A finite map -/

/-- The environment without entries. -/
def empty : Env := ofSorted []

instance : EmptyCollection Env := ⟨empty⟩

instance : Inhabited Env := ⟨empty⟩

/-- Looks up a name in sorted entries; a greater name ends the search. -/
def lookup (name : Bytes) : List (Bytes × Value) → Option Value
  | [] => none
  | (n, v) :: rest =>
    if n = name then some v else if n.lt name then lookup name rest else none

/-- Puts an entry in its place, over an entry of the same name. -/
def insert (name : Bytes) (v : Value) : List (Bytes × Value) → List (Bytes × Value)
  | [] => [(name, v)]
  | (n, w) :: rest =>
    if n = name then (name, v) :: rest
    else if n.lt name then (n, w) :: insert name v rest
    else (name, v) :: (n, w) :: rest

/-- The value of a name. -/
def find? (e : Env) (name : Bytes) : Option Value := lookup name e.bindings

/-- The environment in which `name` has the value `v`. -/
def put (e : Env) (name : Bytes) (v : Value) : Env := ofSorted (insert name v e.bindings)

/-- The environment in which `name` has no value. -/
def remove (e : Env) (name : Bytes) : Env := ofSorted (e.bindings.filter (·.1 ≠ name))

/-- The environment of the given entries; of two entries for a name the later one counts. -/
def ofBindings (xs : List (Bytes × Value)) : Env :=
  xs.foldl (fun e (name, v) => e.put name v) empty

/-- The names with a value, in order. -/
def keys (e : Env) : List Bytes := e.bindings.map (·.1)

/-- The number of names with a value. -/
def size (e : Env) : Nat := e.bindings.length

/-- Whether no name has a value. -/
def isEmpty (e : Env) : Bool := e.packed.isEmpty

/-! ## 3. Names that are texts -/

/-- The names, as texts, with their values, in the order of the names. -/
def entries (e : Env) : List (String × Value) := e.bindings.map fun (name, v) => (name.text, v)

/-- The value of a name. -/
def get? (e : Env) (name : String) : Option Value := e.find? (.ofString name)

/-- The environment in which `name` has the value `v`. -/
def set (e : Env) (name : String) (v : Value) : Env := e.put (.ofString name) v

/-- The environment in which `name` has no value. -/
def erase (e : Env) (name : String) : Env := e.remove (.ofString name)

/-- The environment of the given entries; of two entries for a name the later one counts. -/
def ofList (xs : List (String × Value)) : Env :=
  xs.foldl (fun e (name, v) => e.set name v) empty

/-- The names with a value, as texts, in order. -/
def names (e : Env) : List String := e.entries.map (·.1)

/-- Visits the entries in order for as long as `f` asks to go on. -/
def foldWhile {σ : Type} (e : Env) (f : σ → String → Value → σ × Bool) (s : σ) : σ :=
  go e.entries s
where
  go : List (String × Value) → σ → σ
    | [], s => s
    | (name, v) :: rest, s =>
      match f s name v with
      | (s, true) => go rest s
      | (s, false) => s

/-! ## 4. Texts -/

/-- The bytes `name = value` of an entry. -/
def equation (name : Bytes) (v : Value) : Bytes := name ++ .ofString (" = " ++ v.text)

/-- The equations of the entries, in order. -/
def equations (e : Env) : List Bytes := e.bindings.map fun (name, v) => equation name v

/-- The texts of the entries, in order. -/
def entryTexts (e : Env) : List String := e.equations.map Bytes.text

/-- The text of an environment. -/
def text (e : Env) : String := "\x7b" ++ ", ".intercalate e.entryTexts ++ "\x7d"

end Env

end Lasso
