import Lasso.Config.Duration
import Lasso.Config.Json
import Lasso.Config.Toml
import Lasso.Files
import Lasso.Verify
/-!
# Configuration

How the program is set up. A value comes from the environment, from a file, or from the defaults; the
first of them that gives it counts.

* `Config` is the configuration;
* `Layers.find?` looks up a value, `Layers.settings` gathers all of them;
* `Config.read` reads the configuration, and `Config.logLevel` the level of the log.
-/

namespace Lasso

/-! ## 1. Configurations -/

structure Config where
  listen : String := ""
  storePath : String := ""
  storeInMemory : Bool := false
  logLevel : String := ""
  logDevelopment : Bool := false
  timeout : Duration := ⟨0⟩
  maxStates : Int := 0
  concurrency : Int := 0
  deriving DecidableEq, Repr, Inhabited

/-- Why there is no configuration. -/
inductive ConfigError where
  /-- Files with this extension are not known. -/
  | extension (ext : String)
  | file (cause : FileError)
  /-- The file cannot be read as settings. -/
  | malformed (report : String)
  /-- Some settings are not of the right kind. -/
  | settings (reports : List String)
  | level (text : String)
  deriving DecidableEq, Repr

/-- The report of a failure. -/
def ConfigError.message : ConfigError → String
  | .extension ext => "config: Unsupported Config Type " ++ Text.quote ext
  | .file e => "config: " ++ e.message
  | .malformed report => "config: While parsing config: " ++ report
  | .settings reports =>
    "config: " ++ toString reports.length ++ " error(s) decoding:\n\n" ++
      "\n".intercalate ((sortNames reports).map ("* " ++ ·))
  | .level text => "config: unrecognized level: " ++ Text.quote text

namespace Config

/-! ## 2. Layers -/

/-- The values that count if nothing else is given. -/
def defaults : List (String × Setting) :=
  [("listen", .text "localhost:7070"),
   ("store", .table [("path", .text "gofvm-reports"), ("inmemory", .bool false)]),
   ("log", .table [("level", .text "info"), ("development", .bool false)]),
   ("timeout", .int 60000000000),
   ("maxstates", .int 1000000),
   ("concurrency", .int 0)]

/-- Where values come from: the environment and the file. -/
structure Layers where
  env : List (String × String) := []
  file : List (String × Setting) := []

namespace Layers

/-- The value of a setting in the environment. An empty one does not count. -/
def env? (l : Layers) (path : List String) : Option Setting :=
  let name := "GOFVM_" ++ ("_".intercalate path).map Char.toUpper
  match l.env.lookup name with
  | some v => if v.isEmpty then none else some (.text v)
  | none => none

/-- The value of a setting. What stands in the way of a path in one layer hides the layers below. -/
def find? (l : Layers) (path : List String) : Option Setting :=
  match l.env? path with
  | some v => some v
  | none =>
    if (List.range path.length).any fun i => i > 0 && (l.env? (path.take i)).isSome then none
    else
      match Setting.searchJoined? (path.length + 1) l.file path with
      | some v => some v
      | none => if Setting.hides l.file path then none else Setting.search? defaults path

/-- All settings that have a value, in one table. -/
def settings (l : Layers) : List (String × Setting) :=
  let paths := Setting.leaves "" (Setting.leaves "" [] l.file) defaults
  paths.foldl (fun t p =>
    let path := Text.parts '.' p
    match l.find? path with
    | some v => Setting.putAt v path t
    | none => t) []

end Layers

/-! ## 3. Values -/

/-- The kind of a value in reports. -/
def kindName : Setting → String
  | .null => "nil"
  | .bool _ => "bool"
  | .int n => if n < (Word64.limit : Int) then "int" else "uint64"
  | .float _ => "float64"
  | .text _ => "string"
  | .time => "time.Time"
  | .list _ => "[]interface \x7b\x7d"
  | .table _ => "map[string]interface \x7b\x7d"

mutual

/-- A value in reports. -/
def shown : Setting → String
  | .null => "<nil>"
  | .bool b => toString b
  | .int n => toString n
  | .float x => x.text
  | .text s => s
  | .time => ""
  | .list items => "[" ++ " ".intercalate (shownItems items) ++ "]"
  | .table t =>
    "map[" ++ " ".intercalate
      (((shownEntries t).mergeSort fun a b => !nameLt b.1 a.1).map fun e => e.1 ++ ":" ++ e.2) ++ "]"

def shownItems : List Setting → List String
  | [] => []
  | v :: rest => shown v :: shownItems rest

def shownEntries : List (String × Setting) → List (String × String)
  | [] => []
  | (n, v) :: rest => (n, shown v) :: shownEntries rest

end

/-- The report of a value that is not of the right kind. -/
def unconvertible (name expected : String) (v : Setting) : String :=
  "'" ++ name ++ "' expected type '" ++ expected ++ "', got unconvertible type '" ++ kindName v ++
    "', value: '" ++ shown v ++ "'"

/-- A floating-point number in positional notation. -/
def positional : Double → String
  | .finite negative m e =>
    let (n, k) := Double.shortest m e
    (if negative then "-" else "") ++ Double.positional n k
  | x => x.text

/-- A text; numbers and truth values have one. -/
def toText (name : String) : Setting → Except String String
  | .text s => .ok s
  | .bool b => .ok (if b then "1" else "0")
  | .int n => .ok (toString n)
  | .float x => .ok (positional x)
  | v => .error (unconvertible name "string" v)

/-- Reads a truth value. -/
def bool? (s : String) : Option Bool :=
  if ["1", "t", "T", "true", "TRUE", "True"].contains s then some true
  else if ["0", "f", "F", "false", "FALSE", "False"].contains s then some false
  else none

/-- A truth value; numbers have one. -/
def toBool (name : String) : Setting → Except String Bool
  | .bool b => .ok b
  | .int n => .ok (n ≠ 0)
  | .float (.finite _ m _) => .ok (m ≠ 0)
  | .float _ => .ok true
  | .text s =>
    match bool? s with
    | some b => .ok b
    | none =>
      if s.isEmpty then .ok false
      else .error ("cannot parse '" ++ name ++ "' as bool: strconv.ParseBool: parsing " ++
        Text.quote s ++ ": invalid syntax")
  | v => .error (unconvertible name "bool" v)

/-- Whether underscores stand only between digits, where a base counts as a digit. -/
def goodUnderscores (cs : List Char) : Bool :=
  let (_, _, cs) := Yaml.splitSign cs
  let (based, cs) := match cs with
    | '0' :: m :: rest => if "bBoOxX".toList.contains m then (true, rest) else (false, '0' :: m :: rest)
    | cs => (false, cs)
  go based cs
where
  /-- `digit` tells whether a digit came just before. -/
  go (digit : Bool) : List Char → Bool
    | [] => true
    | '_' :: c :: rest => digit && c ≠ '_' && go false (c :: rest)
    | ['_'] => false
    | _ :: rest => go true rest

/-- Reads a whole number of 64 bits, whose base its first characters tell. -/
def parseInt (s : String) : Except String Int :=
  let cs := s.toList
  let fail (why : String) : Except String Int :=
    .error ("strconv.ParseInt: parsing " ++ Text.quote s ++ ": " ++ why)
  let (_, negative, ds) := Yaml.splitSign cs
  if cs.contains '_' && !goodUnderscores cs then fail "invalid syntax"
  else
    match Yaml.natural? (ds.filter (· ≠ '_')) with
    | none => fail "invalid syntax"
    | some n =>
      if negative then (if n ≤ Word64.limit then .ok (-n) else fail "value out of range")
      else if n < Word64.limit then .ok n
      else fail "value out of range"

/-- A whole number; other numbers are cut, and what does not fit becomes the least number. -/
def cutInt : Double → Int
  | .finite s m e =>
    let n := ((Double.finite s m e).truncate?).getD 0
    if Word64.fits n then n else Word64.least
  | _ => Word64.least

/-- A whole number. -/
def toInt (name expected : String) : Setting → Except String Int
  | .int n => .ok (if n < (Word64.limit : Int) then n else n - (Word64.count : Int))
  | .float x => .ok (cutInt x)
  | .bool b => .ok (if b then 1 else 0)
  | .text s =>
    if s.isEmpty then .ok 0
    else (parseInt s).mapError fun e => "cannot parse '" ++ name ++ "' as int: " ++ e
  | v => .error (unconvertible name expected v)

/-- A span of time: a text with units, or a number of nanoseconds. -/
def toDuration (name : String) : Setting → Except String Duration
  | .text s => (Duration.parse s).mapError fun e => "error decoding '" ++ name ++ "': " ++ e.message
  | v => (toInt name "time.Duration" v).map Duration.mk

/-! ## 4. Reading -/

/-- The reports of wrong values so far. -/
abbrev Decoding := StateM (List String)

/-- The value of a setting, or what it is without one. A wrong value is reported. -/
def decode {α : Type} (t : List (String × Setting)) (key : String) (read : Setting → Except String α)
    (start : α) : Decoding α :=
  match Setting.find? key t with
  | none => return start
  | some v =>
    match read v with
    | .ok a => return a
    | .error e => do
      modify (· ++ [e])
      return start

/-- What a value is called that should be a table. -/
def tableKind : Setting → String
  | .list _ => "slice"
  | .time => "struct"
  | v => kindName v

/-- A table of settings. -/
def toTable (name : String) : Setting → Except String (List (String × Setting))
  | .table t => .ok t
  | v => .error ("'" ++ name ++ "' expected a map, got '" ++ tableKind v ++ "'")

/-- The configuration that settings describe. -/
def ofSettings (t : List (String × Setting)) : Except ConfigError Config :=
  let read : Decoding Config := do
    let listen ← decode t "listen" (toText "Listen") ""
    let store ← decode t "store" (toTable "Store") []
    let storePath ← decode store "path" (toText "Store.Path") ""
    let storeInMemory ← decode store "inmemory" (toBool "Store.InMemory") false
    let log ← decode t "log" (toTable "Log") []
    let logLevel ← decode log "level" (toText "Log.Level") ""
    let logDevelopment ← decode log "development" (toBool "Log.Development") false
    let timeout ← decode t "timeout" (toDuration "Timeout") ⟨0⟩
    let maxStates ← decode t "maxstates" (toInt "MaxStates" "int") 0
    let concurrency ← decode t "concurrency" (toInt "Concurrency" "int") 0
    return { listen, storePath, storeInMemory, logLevel, logDevelopment, timeout, maxStates,
             concurrency }
  match read.run [] with
  | (c, []) => .ok c
  | (_, reports) => .error (.settings reports)

/-- The extension of a path. -/
def extension (path : String) : String :=
  let name := (Text.parts '/' path).getLast?.getD ""
  match (name.toList.reverse.span (· ≠ '.')) with
  | (ext, '.' :: _) => String.ofList ext.reverse
  | _ => ""

/-- Reads the settings in a document. -/
def readYaml (text : String) : Option (List (String × Setting)) :=
  match Yaml.Source.ofText text with
  | .malformed => none
  | .empty => some []
  | .document root => do
    let entries ← Yaml.Data.ofMapping? root
    return Setting.tableOf (entries.map fun (k, d) => (k, Setting.ofData d))

/-- Reads the settings in a file. The extension of its path tells how they are written. -/
def readFile (files : Files) (path : String) : Except ConfigError (List (String × Setting)) := do
  let ext := extension path
  if !(["yaml", "yml", "json", "toml"].contains ext) then throw (.extension ext)
  let text ← (files.read path).mapError .file
  if ext = "json" then (Json.parse text).mapError fun e => .malformed e.message
  else
    match (if ext = "toml" then Toml.parse text else readYaml text) with
    | some t => return t
    | none => throw (.malformed (if ext = "toml" then "toml" else "yaml"))

/-- Reads the configuration. Without a path there is no file. -/
def read (files : Files) (env : List (String × String)) (path : String) :
    Except ConfigError Config := do
  let file ← if path.isEmpty then pure [] else readFile files path
  ofSettings (Layers.settings ⟨env, file⟩)

/-! ## 5. Uses -/

/-- The names of the levels of the log. -/
def levels : List String := ["debug", "info", "warn", "error", "dpanic", "panic", "fatal"]

/-- The level of the log, in whatever case it is written; without a name it is the usual one. -/
def level (c : Config) : Except ConfigError String :=
  let name := c.logLevel.map Char.toLower
  if c.logLevel.isEmpty then .ok "info"
  else if levels.contains name then .ok name
  else .error (.level c.logLevel)

/-- How many options a verification gets: the log, the limit of states, and how many checks run at
the same time if that is given. -/
def optionCount (c : Config) : Nat := if c.concurrency > 0 then 3 else 2

/-- How documents are verified. -/
def verifyOptions (c : Config) : VerifyOptions where
  maxStates := c.maxStates
  concurrency := c.concurrency

end Config

end Lasso
