import Lasso.Command.Address
import Lasso.Command.Arguments
import Lasso.Document.Read
import Lasso.Document.Verify
/-!
# Running commands

What a command does in a world of files, environment variables and a terminal: the text that it
prints, the files that it leaves, and why it fails.

* `Command.printReports` lays out reports;
* `Command.verifyAll` verifies documents one after the other;
* `Command.run` runs the command that the arguments name.
-/

namespace Lasso

namespace Command

/-- What a command sees. -/
structure World where
  files : Files := {}
  env : List (String × String) := []
  /-- Whether the terminal shows colors. -/
  colors : Bool := false
  deriving Repr

/-- Why a command fails. -/
inductive Failure where
  | arguments (cause : ArgumentError)
  | config (cause : ConfigError)
  | file (cause : FileError)
  | document (path : String) (cause : DocumentFailure)
  /-- The file for the search trees of a document cannot be made. -/
  | tree (path : String) (cause : FileError)
  | violated
  | listen (report : String)
  /-- Another machine would have to do the work. -/
  | remote (address : String)
  deriving DecidableEq

/-- The report of a failure. -/
def Failure.message : Failure → String
  | .arguments e => e.message
  | .config e => e.message
  | .file e => e.message
  | .document path e => path ++ ": " ++ e.message
  | .tree path e => path ++ ": " ++ e.message
  | .violated => "a property is violated"
  | .listen report => report
  | .remote address => "no connection to " ++ address

/-- What a command leaves behind. -/
structure Result where
  out : String := ""
  files : Files := {}
  failure? : Option Failure := none

/-! ## 1. Reports -/

/-- Columns are two blanks apart. -/
def reportTable : Text.Table.Format := ⟨0, 2⟩

/-- A text in a color. -/
def colored (colors : Bool) (code text : String) : String :=
  if colors then "\x1b[" ++ code ++ "m" ++ text ++ "\x1b[0m" else text

/-- The lines of a report: its outcome, and the states of the run that violates the property. -/
def reportLines (colors : Bool) (r : Report) : String :=
  let outcome := if r.holds then colored colors "32" "holds" else colored colors "31" "VIOLATED"
  r.document ++ "\t" ++ r.property ++ "\t" ++ outcome ++ "\t" ++ r.fingerprint ++ "\n" ++
    String.join (r.stem.map fun s => "\t->\t" ++ s ++ "\n") ++
    String.join (r.cycle.map fun s => "\t=>\t" ++ s ++ "\n")

/-- The reports on a document. -/
def printReports (colors : Bool) (rs : List Report) : String :=
  Text.Table.layout reportTable (String.join (rs.map (reportLines colors)))

/-! ## 2. Verification -/

/-- How a document is verified. With a file for the search trees the properties are checked one after
the other. -/
def documentOptions (c : Config) (o : Options) : VerifyOptions :=
  if o.searchTree.isEmpty then c.verifyOptions else { c.verifyOptions with concurrency := 1 }

/-- Verifies a document and writes its search trees. The file for them is made first. -/
def verifyDocument (c : Config) (o : Options) (files : Files) (path : String) (d : Document) :
    Except Failure (List Report) × Files :=
  let outcome := (d.verify (documentOptions c o) none).mapError (Failure.document path)
  if o.searchTree.isEmpty then (outcome.map (·.reports), files)
  else
    match files.write o.searchTree "" with
    | .error e => (.error (.tree path e), files)
    | .ok made =>
      match outcome with
      | .error e => (.error e, made)
      | .ok found =>
        (.ok found.reports, (made.write o.searchTree (String.join found.trees)).toOption.getD made)

/-- Verifies the document in a file. -/
def verifyFile (c : Config) (o : Options) (files : Files) (path : String) :
    Except Failure (List Report) × Files :=
  match files.read path with
  | .error e => (.error (.file e), files)
  | .ok text =>
    match Document.parse text with
    | .error e => (.error (.document path (.refused e)), files)
    | .ok d => verifyDocument c o files path d

/-- Verifies documents one after the other, up to the first failure. -/
def verifyAll (c : Config) (o : Options) (colors : Bool) :
    List String → (violated : Bool) → Result → Result
  | [], violated, r => if violated then { r with failure? := some .violated } else r
  | path :: rest, violated, r =>
    match verifyFile c o r.files path with
    | (.error e, files) => { r with files := files, failure? := some e }
    | (.ok rs, files) =>
      verifyAll c o colors rest (violated || rs.any fun p => !p.holds)
        { r with files := files, out := r.out ++ printReports colors rs }

/-! ## 3. Commands -/

/-- What stops a command before it starts: too few or too many arguments, or a bad configuration. -/
def prepare (w : World) (c : Name) (o : Options) (args : List String) : Except Failure Config := do
  if c = .verify && args.isEmpty then throw (.arguments (.tooFew 1 0))
  if c = .serve then
    if let a :: _ := args then throw (.arguments (.unknownCommand a Name.serve.path []))
  let config ← (Config.read w.files w.env o.config).mapError .config
  let config := if o.debug then { config with logLevel := "debug", logDevelopment := true } else config
  let _ ← config.level.mapError .config
  return config

/-- Runs a command. -/
def runCommand (w : World) (c : Name) (o : Options) (args : List String) : Result :=
  match prepare w c o args with
  | .error e => { files := w.files, failure? := some e }
  | .ok config =>
    match c with
    | .verify =>
      if o.remote.isEmpty then
        verifyAll config o (w.colors && !o.noColor) args false { files := w.files }
      else { files := w.files, failure? := some (.remote o.remote) }
    | .serve => { files := w.files, failure? := (Address.problem? config.listen).map .listen }
    | _ => { files := w.files }

/-- Runs the command that the arguments name. -/
def run (w : World) (args : List String) : Result :=
  match choose args with
  | .error e => { files := w.files, failure? := some (.arguments e) }
  | .ok (c, rest) =>
    match parse c rest {} with
    | .error e => { files := w.files, failure? := some (.arguments e) }
    | .ok (o, args) =>
      if o.help || c = .root || c = .help || c = .completion then { files := w.files }
      else runCommand w c o args

end Command

end Lasso
