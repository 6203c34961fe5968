import Lasso.Config.Basic
/-!
# The command line

Commands and their options. An option with a value takes it from behind an equals sign or from the
next argument; options may stand anywhere, up to two dashes alone.

* `Command.choose` finds the command that arguments name;
* `Command.parse` reads its options and its other arguments.
-/

namespace Lasso

namespace Command

/-! ## 1. Options -/

/-- What an option needs. -/
inductive OptionKind where
  /-- A value. -/
  | text
  /-- Nothing, or `=true` or `=false`. -/
  | flag
  deriving DecidableEq, Repr

/-- The commands. The root stands for none of them. -/
inductive Name where
  | root
  | verify
  | serve
  | help
  | completion
  deriving DecidableEq, Repr

/-- The command with its parent, as reports call it. -/
def Name.path : Name → String
  | .root => "gofvm"
  | .verify => "gofvm verify"
  | .serve => "gofvm serve"
  | .help => "gofvm help"
  | .completion => "gofvm completion"

/-- The command of a name. -/
def Name.ofText? (s : String) : Option Name :=
  [("verify", Name.verify), ("serve", .serve), ("help", .help), ("completion", .completion)].lookup s

/-- The options of a command. -/
def Name.options : Name → List (String × OptionKind)
  | .verify =>
    [("config", .text), ("debug", .flag), ("remote", .text), ("search-tree", .text),
      ("no-color", .flag)]
  | _ => [("config", .text), ("debug", .flag)]

/-- What the options of a command say. -/
structure Options where
  config : String := ""
  debug : Bool := false
  remote : String := ""
  searchTree : String := ""
  noColor : Bool := false
  /-- Whether help is asked for. -/
  help : Bool := false
  deriving DecidableEq, Repr

/-- Why arguments cannot be understood. -/
inductive ArgumentError where
  | unknownCommand (name parent : String) (suggestions : List String)
  | badFlag (arg : String)
  | unknownFlag (name : String)
  | unknownShorthand (byte : UInt8) (letters : String)
  | missingValue (arg : String)
  | badTruth (value flag : String)
  | tooFew (needed given : Nat)
  deriving DecidableEq, Repr

/-- The report of a failure. -/
def ArgumentError.message : ArgumentError → String
  | .unknownCommand n p suggestions =>
    "unknown command " ++ Text.quote n ++ " for " ++ Text.quote p ++
      if suggestions.isEmpty then ""
      else "\n\nDid you mean this?\n" ++ String.join (suggestions.map fun s => "\t" ++ s ++ "\n")
  | .badFlag a => "bad flag syntax: " ++ a
  | .unknownFlag n => "unknown flag: --" ++ n
  | .unknownShorthand b letters =>
    "unknown shorthand flag: " ++ Config.Json.quoteByte b ++ " in -" ++ letters
  | .missingValue a => "flag needs an argument: " ++ a
  | .badTruth v f =>
    "invalid argument " ++ Text.quote v ++ " for " ++ Text.quote ("--" ++ f) ++
      " flag: strconv.ParseBool: parsing " ++ Text.quote v ++ ": invalid syntax"
  | .tooFew needed given =>
    "requires at least " ++ toString needed ++ " arg(s), only received " ++ toString given

/-! ## 2. Commands -/

/-- Whether an argument takes the next one as its value. -/
def takesNext (c : Name) (arg : String) : Bool :=
  let cs := arg.toList
  if cs.contains '=' then false
  else
    match cs with
    | '-' :: '-' :: name => c.options.lookup (String.ofList name) ≠ some .flag
    | ['-', _] => true
    | _ => false

/-- The arguments that are neither options nor their values. Near the end of the arguments an option
that takes a value ends them. -/
def plainArguments (c : Name) : List String → List String
  | [] => []
  | "--" :: _ => []
  | arg :: rest =>
    if takesNext c arg then
      match rest with
      | _ :: more => if more.isEmpty then [] else plainArguments c more
      | [] => []
    else if arg ≠ "" && !arg.startsWith "-" then arg :: plainArguments c rest
    else plainArguments c rest

/-- The arguments without the first plain one of a certain text. -/
def dropFirst (c : Name) (x : String) : List String → List String
  | [] => []
  | "--" :: rest => "--" :: rest
  | arg :: rest =>
    if takesNext c arg then
      match rest with
      | v :: more => arg :: v :: dropFirst c x more
      | [] => [arg]
    else if !arg.startsWith "-" && arg = x then rest
    else arg :: dropFirst c x rest

/-- How many letters must be put in, left out or changed to make one text of another. -/
def editDistance (s t : List UInt8) : Nat :=
  let start := List.range (t.length + 1)
  let last := s.zipIdx.foldl (fun (row : List Nat) (a, i) =>
    ((t.zip (row.zip row.tail)).foldl (fun (acc : List Nat × Nat) (b, diag, up) =>
      let cost := if a = b then diag else 1 + min diag (min up acc.2)
      (acc.1 ++ [cost], cost)) ([i + 1], i + 1)).1) start
  last.getLastD 0

/-- The commands whose names are similar to a text, or start with it. -/
def suggestions (typed : String) : List String :=
  let low := typed.map Char.toLower
  ["verify", "serve", "completion"].filter fun n =>
    editDistance (Bytes.ofString low) (Bytes.ofString n) ≤ 2 || n.startsWith low

/-- The command that arguments name, with the arguments behind it. -/
def choose (args : List String) : Except ArgumentError (Name × List String) :=
  match plainArguments .root args with
  | [] => .ok (.root, args)
  | n :: _ =>
    match Name.ofText? n with
    | some c => .ok (c, dropFirst .root n args)
    | none => .error (.unknownCommand n Name.root.path (suggestions n))

/-! ## 3. Reading options -/

/-- Sets an option. -/
def Options.set (o : Options) (name value : String) : Except ArgumentError Options :=
  let truth (put : Bool → Options) : Except ArgumentError Options :=
    match Config.bool? value with
    | some b => .ok (put b)
    | none => .error (.badTruth value name)
  match name with
  | "config" => .ok { o with config := value }
  | "remote" => .ok { o with remote := value }
  | "search-tree" => .ok { o with searchTree := value }
  | "debug" => truth fun b => { o with debug := b }
  | "no-color" => truth fun b => { o with noColor := b }
  | _ => truth fun b => { o with help := b }

/-- Splits a text at the first equals sign. -/
def splitEquals (cs : List Char) : String × Option String :=
  match cs.dropWhile (· ≠ '=') with
  | _ :: value => (String.ofList (cs.takeWhile (· ≠ '=')), some (String.ofList value))
  | [] => (String.ofList cs, none)

/-- Reads the options and the other arguments of a command. -/
def parse (c : Name) : List String → Options → Except ArgumentError (Options × List String)
  | [], o => .ok (o, [])
  | arg :: rest, o =>
    match arg.toList with
    | ['-', '-'] => .ok (o, rest)
    | '-' :: '-' :: cs =>
      if cs.head? = some '-' || cs.head? = some '=' then .error (.badFlag arg)
      else
        let (name, value?) := splitEquals cs
        match (("help", OptionKind.flag) :: c.options).lookup name with
        | none => .error (.unknownFlag name)
        | some kind =>
          match value?, kind with
          | some v, _ => do parse c rest (← o.set name v)
          | none, .flag => do parse c rest (← o.set name "true")
          | none, .text =>
            match rest with
            | v :: more => do parse c more (← o.set name v)
            | [] => .error (.missingValue arg)
    | '-' :: l :: cs =>
      if l = 'h' then .ok ({ o with help := true }, rest)
      else if "test.".toList.isPrefixOf (l :: cs) then parse c rest o
      else .error (.unknownShorthand ((Bytes.ofString (String.ofList [l])).headD 0)
        (String.ofList (l :: cs)))
    | _ => do
      let (o, args) ← parse c rest o
      return (o, arg :: args)

end Command

end Lasso
