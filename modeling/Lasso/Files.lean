import Lasso.Text.Order
import Lasso.Text.Parts
/-!
# Files

The files that a program knows, seen from the directory in which it runs. A path that starts with a
slash is taken from the root, whose name is the slash.

* `Files.read` gives the text of a file;
* `Files.write` replaces or makes a file.
-/

namespace Lasso

/-- What is wrong with a path. -/
inductive FileProblem where
  | missing
  | isDirectory
  | notDirectory
  deriving DecidableEq, Repr

/-- Why a file cannot be used: what was tried, the path, and what is wrong with it. -/
structure FileError where
  operation : String
  path : String
  problem : FileProblem
  deriving DecidableEq, Repr

def FileProblem.text : FileProblem → String
  | .missing => "no such file or directory"
  | .isDirectory => "is a directory"
  | .notDirectory => "not a directory"

/-- The report of a failure. -/
def FileError.message (e : FileError) : String :=
  e.operation ++ " " ++ e.path ++ ": " ++ e.problem.text

/-- The texts of files by the names on their paths, and the directories that may be empty. -/
structure Files where
  entries : List (List String × String) := []
  directories : List (List String) := []
  deriving DecidableEq, Repr

namespace Files

/-- What a path leads to. -/
inductive Place where
  | file (path : List String) (text : String)
  | directory (path : List String)
  /-- Nothing has this name in a directory that exists. -/
  | free (path : List String)
  | missing
  | notDirectory
  deriving DecidableEq, Repr

/-- Whether a path is a directory. Those above the one in which the program runs always are. -/
def isDirectory (fs : Files) (path : List String) : Bool :=
  path.all (· = "..") || path = ["/"] || fs.directories.contains path ||
    fs.entries.any fun e => path.isPrefixOf e.1 && path ≠ e.1

/-- What stands under the names of a path. -/
def at_ (fs : Files) (path : List String) : Place :=
  match fs.entries.lookup path with
  | some text => .file path text
  | none => if fs.isDirectory path then .directory path else .free path

/-- The directory that contains a directory. -/
def above (path : List String) : List String :=
  if path.all (· = "..") then path ++ [".."] else if path = ["/"] then path else path.dropLast

/-- Follows the names of a path from a directory. -/
def walk (fs : Files) (here : List String) : List String → Place
  | [] => .directory here
  | n :: rest =>
    if n = "" || n = "." then walk fs here rest
    else if n = ".." then walk fs (above here) rest
    else
      match fs.at_ (here ++ [n]) with
      | .directory path => walk fs path rest
      | .file path text => if rest.isEmpty then .file path text else .notDirectory
      | p => if rest.isEmpty then p else .missing

/-- What a path leads to. -/
def find (fs : Files) (path : String) : Place :=
  if path.isEmpty then .missing
  else fs.walk (if path.startsWith "/" then ["/"] else []) (Text.parts '/' path)

/-- The text of a file. -/
def read (fs : Files) (path : String) : Except FileError String :=
  match fs.find path with
  | .file _ text => .ok text
  | .directory _ => .error ⟨"read", path, .isDirectory⟩
  | .notDirectory => .error ⟨"open", path, .notDirectory⟩
  | .free _ | .missing => .error ⟨"open", path, .missing⟩

/-- Replaces the text of a file, or makes the file. -/
def write (fs : Files) (path text : String) : Except FileError Files :=
  let put (p : List String) : Files :=
    { fs with entries := fs.entries.filter (fun e => e.1 ≠ p) ++ [(p, text)] }
  match fs.find path with
  | .file p _ | .free p => .ok (put p)
  | .directory _ => .error ⟨"open", path, .isDirectory⟩
  | .notDirectory => .error ⟨"open", path, .notDirectory⟩
  | .missing => .error ⟨"open", path, .missing⟩

/-- A directory with the given files. -/
def ofList (fs : List (String × String)) : Files where
  entries := fs.map fun (path, text) => ((Text.parts '/' path).filter fun n => n ≠ "" && n ≠ ".", text)

/-- The paths and texts of all files. -/
def toList (fs : Files) : List (String × String) :=
  fs.entries.map fun (path, text) => ("/".intercalate path, text)

end Files

end Lasso
