import Lasso.Config.Setting
import Lasso.Text.Order
/-!
# Settings in sections

Reads settings that are written as lines with a key and a value below the names of sections.

* `Toml.Line` is a line of the text, `Toml.lines` reads the lines;
* `Toml.parse` gives the table that the lines describe.
-/

namespace Lasso.Config.Toml

/-! ## 1. Characters -/

/-- Reading may fail. -/
abbrev Reading := StateT (List Char) Option

/-- Steps over blanks. -/
def blanks : Reading Unit := modify fun cs => cs.dropWhile fun c => c = ' ' || c = '\t'

/-- Steps over a comment. -/
def comment : Reading Unit := do
  match ← get with
  | '#' :: cs =>
    let line := cs.takeWhile fun c => c ≠ '\n' && !(c = '\r')
    if line.any fun c => (c < ' ' && c ≠ '\t') || c = '\x7f' then failure
    set (cs.drop line.length)
  | _ => return ()

/-- Steps over the end of a line, or stays at the end of the text. -/
def lineEnd : Reading Unit := do
  blanks
  comment
  match ← get with
  | [] => return ()
  | '\n' :: cs => set cs
  | '\r' :: '\n' :: cs => set cs
  | _ => failure

/-- Steps over blanks, comments and ends of lines. -/
def gaps : (fuel : Nat) → Reading Unit
  | 0 => return ()
  | fuel + 1 => do
    blanks
    comment
    match ← get with
    | '\n' :: cs => do set cs; gaps fuel
    | '\r' :: '\n' :: cs => do set cs; gaps fuel
    | _ => return ()

/-- Steps over a certain character. -/
def expect (c : Char) : Reading Unit := do
  match ← get with
  | d :: cs => if d = c then set cs else failure
  | [] => failure

/-! ## 2. Texts -/

/-- Reads hexadecimal digits. -/
def hexChar (n : Nat) : Reading Char := do
  let cs ← get
  if cs.length < n then failure
  set (cs.drop n)
  match Yaml.charOfHex? (cs.take n) with
  | some c => return c
  | none => failure

/-- Reads what stands behind a backslash. -/
def escape : Reading Char := do
  match ← get with
  | 'b' :: cs => do set cs; return '\x08'
  | 't' :: cs => do set cs; return '\t'
  | 'n' :: cs => do set cs; return '\n'
  | 'f' :: cs => do set cs; return '\x0c'
  | 'r' :: cs => do set cs; return '\r'
  | 'e' :: cs => do set cs; return '\x1b'
  | '"' :: cs => do set cs; return '"'
  | '\\' :: cs => do set cs; return '\\'
  | 'u' :: cs => do set cs; hexChar 4
  | 'U' :: cs => do set cs; hexChar 8
  | _ => failure

/-- Whether a character may stand in a text without an escape. -/
def isTextChar (c : Char) : Bool := c = '\t' || (c ≥ ' ' && c ≠ '\x7f')

/-- Reads a text in one line up to its closing quote. -/
def shortText (literal : Bool) : (fuel : Nat) → List Char → Reading String
  | 0, _ => failure
  | fuel + 1, done => do
    match ← get with
    | [] => failure
    | c :: cs =>
      if c = (if literal then '\'' else '"') then
        set cs
        return String.ofList done
      else if c = '\\' && !literal then
        set cs
        let e ← escape
        shortText literal fuel (done ++ [e])
      else if isTextChar c then
        set cs
        shortText literal fuel (done ++ [c])
      else failure

/-- Reads a text of several lines up to its three closing quotes, before which up to two more quotes
may stand. -/
def longText (literal : Bool) : (fuel : Nat) → List Char → Reading String
  | 0, _ => failure
  | fuel + 1, done => do
    let q := if literal then '\'' else '"'
    let cs ← get
    let quotes := (cs.takeWhile (· = q)).length
    if quotes ≥ 3 then
      if quotes > 5 then failure
      set (cs.drop quotes)
      return String.ofList (done ++ List.replicate (quotes - 3) q)
    match cs with
    | [] => failure
    | '\\' :: rest =>
      if literal then do set rest; longText literal fuel (done ++ ['\\'])
      else
        let after := rest.dropWhile fun c => c = ' ' || c = '\t'
        -- a backslash at the end of a line joins it to the next text
        if after.head? = some '\n' || "\r\n".toList.isPrefixOf after then
          set (after.dropWhile fun c => c = ' ' || c = '\t' || c = '\n' || c = '\r')
          longText literal fuel done
        else
          set rest
          let e ← escape
          longText literal fuel (done ++ [e])
    | c :: rest =>
      if isTextChar c || c = '\n' || "\r\n".toList.isPrefixOf cs then
        set rest
        longText literal fuel (done ++ [c])
      else failure

/-- Reads a text in quotes. -/
def quotedText (long : Bool) : Reading String := do
  let cs ← get
  let fuel := cs.length + 1
  match cs with
  | q :: rest =>
    let literal := q = '\''
    if q ≠ '"' && !literal then failure
    if long && rest.take 2 = [q, q] then
      let body := rest.drop 2
      set (match body with
        | '\n' :: more => more
        | '\r' :: '\n' :: more => more
        | body => body)
      longText literal fuel []
    else
      set rest
      shortText literal fuel []
  | [] => failure

/-! ## 3. Keys -/

/-- Reads a name. -/
def name : Reading String := do
  let cs ← get
  let bare := cs.takeWhile fun c => c.isAlphanum || c = '_' || c = '-'
  if bare.isEmpty then quotedText false
  else
    set (cs.drop bare.length)
    return String.ofList bare

/-- Reads names with points between them. -/
def names : (fuel : Nat) → Reading (List String)
  | 0 => failure
  | fuel + 1 => do
    blanks
    let n ← name
    blanks
    match ← get with
    | '.' :: cs => do set cs; return n :: (← names fuel)
    | _ => return [n]

/-! ## 4. Values -/

/-- The digits of a number without the underscores between them. -/
def plainDigits? (ok : Char → Bool) : List Char → Option (List Char)
  | [] => none
  | [c] => if ok c then some [c] else none
  | c :: '_' :: rest => if ok c then (plainDigits? ok rest).map (c :: ·) else none
  | c :: rest => if ok c then (plainDigits? ok rest).map (c :: ·) else none

/-- Whole numbers have 64 bits. -/
def fits? (n : Int) : Option Setting :=
  if Word64.fits n then some (.int n) else none

/-- Reads a whole number. -/
def whole? (cs : List Char) : Option Setting := do
  let radix (base : Nat) (ds : List Char) : Option Setting := do
    let ds ← plainDigits? (fun c => (Yaml.digit? c).any (· < base)) ds
    fits? (← Yaml.digits? base ds)
  match cs with
  | '0' :: 'x' :: ds => radix 16 ds
  | '0' :: 'o' :: ds => radix 8 ds
  | '0' :: 'b' :: ds => radix 2 ds
  | cs =>
    let (_, negative, ds) := Yaml.splitSign cs
    let ds ← plainDigits? Char.isDigit ds
    if ds.length > 1 && ds.head? = some '0' then none
    let n ← Yaml.digits? 10 ds
    fits? (if negative then -n else n)

/-- Reads a number with a point or an exponent. -/
def float? (cs : List Char) : Option Setting := do
  let (_, negative, ds) := Yaml.splitSign cs
  if ds = "inf".toList then return .float (.infinite negative)
  if ds = "nan".toList then return .float .nan
  let head := ds.takeWhile fun c => c.isDigit || c = '_'
  let rest := ds.drop head.length
  let head ← plainDigits? Char.isDigit head
  if head.length > 1 && head.head? = some '0' then none
  let (part, rest) ← (match rest with
    | '.' :: rest =>
      let part := rest.takeWhile fun c => c.isDigit || c = '_'
      (plainDigits? Char.isDigit part).map (·, rest.drop part.length)
    | rest => some ([], rest) : Option (List Char × List Char))
  let exp ← (match rest with
    | [] => some 0
    | e :: rest =>
      if e = 'e' || e = 'E' then do
        let (_, negative, ds) := Yaml.splitSign rest
        let ds ← plainDigits? Char.isDigit ds
        let n ← Yaml.digits? 10 ds
        return if negative then -(n : Int) else n
      else none : Option Int)
  return .float (.ofDecimal negative (← Yaml.digits? 10 (head ++ part)) (exp - part.length))

/-- Whether a text is a date, a time of day, or both. -/
def isMoment (cs : List Char) : Bool :=
  let two (cs : List Char) : Bool := (cs.takeWhile Char.isDigit).length = 2
  let clock (cs : List Char) : Option (List Char) :=
    if two cs && cs.length ≥ 8 && two (cs.drop 3) && two (cs.drop 6) then Yaml.time? cs else none
  let day (cs : List Char) : Option (List Char) :=
    if two (cs.drop 5) && two (cs.drop 8) then Yaml.date? cs else none
  (clock cs).any List.isEmpty ||
    match day cs with
    | none => false
    | some [] => true
    | some (t :: rest) =>
      (t = 'T' || t = 't' || t = ' ') &&
        (clock rest).any fun rest => rest.isEmpty || rest = ['z'] || Yaml.isZone rest

/-- Reads a value that is written without quotes and brackets. -/
def bareValue : Reading Setting := do
  let cs ← get
  let isBare (c : Char) : Bool := c.isAlphanum || "_+-.:".toList.contains c
  let token := cs.takeWhile isBare
  let rest := cs.drop token.length
  -- a blank may stand between a date and a time of day
  let (token, rest) := match rest with
    | ' ' :: d :: more =>
      if token.length = 10 && d.isDigit && (Yaml.date? token).any List.isEmpty then
        let clock := (d :: more).takeWhile isBare
        (token ++ ' ' :: clock, (d :: more).drop clock.length)
      else (token, rest)
    | rest => (token, rest)
  set rest
  if token = "true".toList then return .bool true
  if token = "false".toList then return .bool false
  match (whole? token).or (float? token) with
  | some v => return v
  | none => if isMoment token then return .time else failure

/-- Puts a value under names into a table, in which none of them may stand for a value already. -/
def insert? : List String → Setting → List (String × Setting) → Option (List (String × Setting))
  | [], _, _ => none
  | [n], v, t => if (t.lookup n).isSome then none else some (t ++ [(n, v)])
  | n :: rest, v, t =>
    match t.lookup n with
    | none => do return t ++ [(n, .table (← insert? rest v []))]
    | some (.table u) => do return Setting.put n (.table (← insert? rest v u)) t
    | some _ => none

mutual

/-- Reads a value. -/
def value : (fuel : Nat) → Reading Setting
  | 0 => failure
  | fuel + 1 => do
    blanks
    match ← get with
    | '"' :: _ => .text <$> quotedText true
    | '\'' :: _ => .text <$> quotedText true
    | '[' :: cs => do set cs; .list <$> elements fuel []
    | '\x7b' :: cs => do set cs; .table <$> members fuel true []
    | _ => bareValue

/-- Reads the elements of a list and its closing bracket. -/
def elements : (fuel : Nat) → List Setting → Reading (List Setting)
  | 0, _ => failure
  | fuel + 1, done => do
    gaps ((← get).length + 1)
    match ← get with
    | ']' :: cs => do set cs; return done
    | _ =>
      let v ← value fuel
      gaps ((← get).length + 1)
      match ← get with
      | ',' :: cs => do set cs; elements fuel (done ++ [v])
      | ']' :: cs => do set cs; return done ++ [v]
      | _ => failure

/-- Reads the entries of a table in braces and its closing brace. -/
def members : (fuel : Nat) → (first : Bool) → List (String × Setting) →
    Reading (List (String × Setting))
  | 0, _, _ => failure
  | fuel + 1, first, done => do
    blanks
    match ← get with
    | '\x7d' :: cs => if first then do set cs; return [] else failure
    | _ =>
      let ns ← names ((← get).length + 1)
      expect '='
      let v ← value fuel
      let some done := insert? ns v done | failure
      blanks
      match ← get with
      | ',' :: cs => do set cs; members fuel false done
      | '\x7d' :: cs => do set cs; return done
      | _ => failure

end

/-! ## 5. Lines -/

/-- A line of a text. -/
inductive Line where
  | entry (path : List String) (v : Setting)
  | section_ (path : List String)
  /-- A section that may occur several times. -/
  | item (path : List String)

/-- Reads a line. -/
def line : Reading Line := do
  let fuel := (← get).length + 1
  match ← get with
  | '[' :: '[' :: cs =>
    set cs
    let ns ← names fuel
    expect ']'
    expect ']'
    return .item ns
  | '[' :: cs =>
    set cs
    let ns ← names fuel
    expect ']'
    return .section_ ns
  | _ =>
    let ns ← names fuel
    expect '='
    return .entry ns (← value fuel)

/-- Reads the lines of a text. -/
def lines : (fuel : Nat) → Reading (List Line)
  | 0 => failure
  | fuel + 1 => do
    gaps ((← get).length + 1)
    if (← get).isEmpty then return []
    let l ← line
    lineEnd
    return l :: (← lines fuel)

/-! ## 6. Tables -/

/-- What is known about a path. -/
inductive Mark where
  | value
  /-- A table; the flag tells whether it has a line of its own. -/
  | table (explicit : Bool)
  | items
  deriving DecidableEq

/-- The paths that have occurred. -/
abbrev Marks := List (List String × Mark)

/-- Marks a path unless it is marked. -/
def Marks.add (ms : Marks) (path : List String) (m : Mark) : Marks :=
  (path, m) :: ms.filter fun e => e.1 ≠ path

/-- The paths in front of a path. -/
def parents (path : List String) : List (List String) :=
  (List.range path.length).filterMap fun i => if i = 0 then none else some (path.take i)

/-- Marks the paths in front of a section; none of them may be a value. -/
def Marks.enter (ms : Marks) (path : List String) : Option Marks :=
  (parents path).foldlM (fun ms p =>
    match ms.lookup p with
    | none => some (ms.add p (.table false))
    | some .value => none
    | some _ => some ms) ms

/-- Marks a line; nothing may be defined twice. -/
def Marks.line (ms : Marks) (above : List String) : Line → Option Marks
  | .section_ path => do
    let ms ← ms.enter path
    match ms.lookup path with
    | none | some (.table false) => some (ms.add path (.table true))
    | some _ => none
  | .item path => do
    let ms ← ms.enter path
    match ms.lookup path with
    -- what belongs to the item before is forgotten
    | none | some .items =>
      some (Marks.add (ms.filter fun e => !(path.isPrefixOf e.1)) path .items)
    | some _ => none
  | .entry keys _ => do
    let ms ← ((parents keys).foldlM (fun ms p =>
      match ms.lookup (above ++ p) with
      | none => some (ms.add (above ++ p) (.table false))
      | some (.table false) => some ms
      | some _ => none) ms : Option Marks)
    if (ms.lookup (above ++ keys)).isSome then none
    return ms.add (above ++ keys) .value

/-- Changes the table under a path; of items, the last one. -/
def changeAt (f : List (String × Setting) → List (String × Setting)) :
    List String → List (String × Setting) → List (String × Setting)
  | [], t => f t
  | n :: rest, t =>
    match t.lookup n with
    | some (.list items) =>
      let u := match items.getLast? with
        | some (.table u) => u
        | _ => []
      Setting.put n (.list (items.dropLast ++ [.table (changeAt f rest u)])) t
    | some (.table u) => Setting.put n (.table (changeAt f rest u)) t
    | _ => Setting.put n (.table (changeAt f rest [])) t

/-- Adds an item to the list under a path. -/
def addItem (path : List String) (t : List (String × Setting)) : List (String × Setting) :=
  match path.getLast? with
  | none => t
  | some n => changeAt (fun u =>
      match u.lookup n with
      | some (.list items) => Setting.put n (.list (items ++ [.table []])) u
      | _ => Setting.put n (.list [.table []]) u) path.dropLast t

/-- Builds the table that lines describe. -/
def build : List Line → Marks → (above : List String) → List (String × Setting) →
    Option (List (String × Setting))
  | [], _, _, t => some t
  | l :: rest, ms, above, t => do
    let ms ← ms.line above l
    match l with
    | .section_ path => build rest ms path (changeAt id path t)
    | .item path => build rest ms path (addItem path t)
    | .entry keys v => build rest ms above (changeAt (Setting.putAt v keys) above t)

mutual

/-- A value with all names in lower case. -/
def lowered : Setting → Setting
  | .list items => .list (loweredItems items)
  | .table t => .table (Setting.tableOf (loweredEntries t))
  | v => v

def loweredItems : List Setting → List Setting
  | [] => []
  | v :: rest => lowered v :: loweredItems rest

def loweredEntries : List (String × Setting) → List (String × Setting)
  | [] => []
  | (n, v) :: rest => (n, lowered v) :: loweredEntries rest

end

/-- Reads a table of settings. -/
def parse (text : String) : Option (List (String × Setting)) := do
  let cs := text.toList
  let ls ← (lines (cs.length + 2)).run' cs
  let t ← build ls [] [] []
  match lowered (.table t) with
  | .table t => some t
  | _ => none

end Lasso.Config.Toml
