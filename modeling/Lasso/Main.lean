import Lasso.Command.Run
/-!
# The program

Looks at the files that the arguments may mean and at the environment, runs the command, prints what
it prints and writes the files that it has changed.
-/

namespace Lasso.Main

/-- The names of all settings in the environment. -/
def envNames : List String :=
  ["LISTEN", "STORE", "STORE_PATH", "STORE_INMEMORY", "LOG", "LOG_LEVEL", "LOG_DEVELOPMENT",
    "TIMEOUT", "MAXSTATES", "CONCURRENCY"].map ("GOFVM_" ++ ·)

/-- The texts that arguments may mean as paths: an argument itself, and what stands behind an equals
sign in it. -/
def candidates (args : List String) : List String :=
  args ++ args.filterMap fun a => (Command.splitEquals a.toList).2

/-- The paths in front of a path, and the path itself. -/
def stations (path : String) : List String :=
  let names := Text.parts '/' path
  (List.range names.length).map fun i => "/".intercalate (names.take (i + 1))

/-- The names on a path. -/
def namesOf (path : String) : List String :=
  (if path.startsWith "/" then ["/"] else []) ++
    (Text.parts '/' path).filter fun n => n ≠ "" && n ≠ "."

/-- Looks at a path and adds what stands there to the files. -/
def look (fs : Files) (path : String) : IO Files := do
  if (namesOf path).isEmpty then return fs
  try
    let text ← IO.FS.readFile path
    return { fs with entries := (namesOf path, text) :: fs.entries }
  catch
    | .noFileOrDirectory .. => return fs
    | .inappropriateType .. => return { fs with directories := namesOf path :: fs.directories }
    | _ => return fs

/-- What the command sees. -/
def world (args : List String) : IO Command.World := do
  let files ← ((candidates args).flatMap stations).eraseDups.foldlM look {}
  let env ← envNames.filterMapM fun n => return (← IO.getEnv n).map (n, ·)
  let colors := (← IO.getEnv "NO_COLOR").isNone && (← (← IO.getStdout).isTty)
  return { files := files, env := env, colors := colors }

end Lasso.Main

open Lasso in
/-- Runs the command that the arguments name. -/
def main (args : List String) : IO UInt32 := do
  let w ← Main.world args
  let r := Command.run w args
  IO.print r.out
  for (path, text) in r.files.toList do
    if !w.files.toList.contains (path, text) then IO.FS.writeFile path text
  match r.failure? with
  | none => return 0
  | some e =>
    IO.eprintln ("error: " ++ e.message)
    return 1
