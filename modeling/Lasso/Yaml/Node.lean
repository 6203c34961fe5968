import Lasso.Yaml.Resolve
import Lasso.Yaml.Scan
/-!
# Nodes of documents

The tree that the tokens of a text describe. Only the first document of a text counts.

* `Node` is the tree; an alias carries the node that it stands for;
* `Node.ofTokens?` reads the first document from tokens;
* `document?` reads it from a text.
-/

namespace Lasso.Yaml

/-! ## 1. Nodes -/

inductive Node where
  | scalar (tag text : String)
  | sequence (items : List Node)
  | mapping (entries : List (Node × Node))
  /-- A node that has been named before. Within the node that bears the name there is no target. -/
  | alias (name : String) (target? : Option Node)
  deriving Inhabited, Repr

/-- The scalar that stands where nothing is written. -/
def Node.empty : Node := .scalar "!!null" ""

/-- The stem of the tags that are written with two marks. -/
def coreStem : String := "tag:yaml.org,2002:"

/-- A tag in its short form. -/
def shortTag (tag : String) : String :=
  if coreStem.toList.isPrefixOf tag.toList then
    "!!" ++ String.ofList (tag.toList.drop coreStem.length)
  else tag

/-- A scalar with a tag, or with the tag that its spelling gives. -/
def Node.ofScalar (tag text : String) (style : Style) : Node :=
  if tag ≠ "" && tag ≠ "!" then .scalar (shortTag tag) text
  else if style ≠ .plain then .scalar "!!str" text
  else if text = "<<" then .scalar "!!merge" text
  else .scalar (meaning text).tag text

/-! ## 2. Reading tokens -/

/-- The tokens that are left, the nodes that have names, and the stems of tags. -/
structure NodeReader where
  tokens : List Token
  named : List (String × Option Node) := []
  stems : List (String × String) := []

/-- Reading may fail. -/
abbrev Reading := StateT NodeReader Option

namespace Reading

/-- The next token. -/
def peek : Reading Token := do
  match (← get).tokens with
  | t :: _ => return t
  | [] => failure

/-- Steps over the next token. -/
def skip : Reading Unit := modify fun s => { s with tokens := s.tokens.tail }

/-- Gives a node a name, if one was written. -/
def bind (name? : Option String) (node? : Option Node) : Reading Unit :=
  match name? with
  | some n => modify fun s => { s with named := (n, node?) :: s.named }
  | none => pure ()

/-- Fills in the node of the name that was given last and has none. -/
def fill (name : String) (node : Node) : List (String × Option Node) → List (String × Option Node)
  | [] => []
  | (n, target?) :: rest =>
    if n = name && target?.isNone then (n, some node) :: rest
    else (n, target?) :: fill name node rest

/-- Ends the node that bears a name. -/
def complete (name? : Option String) (node : Node) : Reading Unit :=
  match name? with
  | some n => modify fun s => { s with named := fill n node s.named }
  | none => pure ()

/-- The tag that a handle and a suffix stand for. -/
def expandTag (handle suffix : String) : Reading String := do
  if handle = "" then return suffix
  match (← get).stems.find? (·.1 = handle) with
  | some (_, stem) => if stem ++ suffix = "" then failure else return stem ++ suffix
  | none => failure

/-- Reads the name and the tag in front of a node, in any order. -/
def properties : Reading (Option String × String) := do
  match ← peek with
  | .anchor n =>
    skip
    match ← peek with
    | .tag h x => do skip; return (some n, ← expandTag h x)
    | _ => return (some n, "")
  | .tag h x =>
    skip
    match ← peek with
    | .anchor n => do skip; return (some n, ← expandTag h x)
    | _ => return (none, ← expandTag h x)
  | _ => return (none, "")

/-- Where a node may stand: whether a block collection may start, and whether the entries of a
sequence may stand as far left as the keys around them. -/
structure Place where
  block : Bool
  indentless : Bool := false

mutual

/-- Reads a node. -/
def node : (fuel : Nat) → Place → Reading Node
  | 0, _ => failure
  | fuel + 1, place => do
    if let .alias n ← peek then
      skip
      match (← get).named.find? (·.1 = n) with
      | some (_, target?) => return .alias n target?
      | none => failure
    let (name?, tag) ← properties
    let collection (read : Reading Node) : Reading Node := do
      bind name? none
      let n ← read
      complete name? n
      return n
    match ← peek with
    | .scalar text style =>
      skip
      let n := Node.ofScalar tag text style
      bind name? (some n)
      return n
    | .flowSequenceStart => do skip; collection (.sequence <$> flowItems fuel true)
    | .flowMappingStart => do skip; collection (.mapping <$> flowEntries fuel true)
    | t =>
      if place.indentless && t = .blockEntry then collection (.sequence <$> openItems fuel)
      else if place.block && t = .blockSequenceStart then
        do skip; collection (.sequence <$> blockItems fuel)
      else if place.block && t = .blockMappingStart then
        do skip; collection (.mapping <$> blockEntries fuel)
      else if name?.isSome || tag ≠ "" then
        let n := Node.ofScalar tag "" .plain
        bind name? (some n)
        return n
      else failure

/-- Reads a node unless one of the given tokens shows that nothing is written. -/
def nodeUnless : (fuel : Nat) → Place → List Token → Reading Node
  | 0, _, _ => failure
  | fuel + 1, place, stops => do
    if stops.contains (← peek) then return .empty else node fuel place

/-- Reads the entries of a block sequence and its end. -/
def blockItems : (fuel : Nat) → Reading (List Node)
  | 0 => failure
  | fuel + 1 => do
    match ← peek with
    | .blockEntry =>
      skip
      let n ← nodeUnless fuel ⟨true, false⟩ [.blockEntry, .blockEnd]
      return n :: (← blockItems fuel)
    | .blockEnd => do skip; return []
    | _ => failure

/-- Reads the entries of a sequence that ends with the mapping around it. -/
def openItems : (fuel : Nat) → Reading (List Node)
  | 0 => failure
  | fuel + 1 => do
    match ← peek with
    | .blockEntry =>
      skip
      let n ← nodeUnless fuel ⟨true, false⟩ [.blockEntry, .key, .value, .blockEnd]
      return n :: (← openItems fuel)
    | _ => return []

/-- Reads the entries of a block mapping and its end. -/
def blockEntries : (fuel : Nat) → Reading (List (Node × Node))
  | 0 => failure
  | fuel + 1 => do
    match ← peek with
    | .key =>
      skip
      let k ← nodeUnless fuel ⟨true, true⟩ [.key, .value, .blockEnd]
      match ← peek with
      | .value =>
        skip
        let v ← nodeUnless fuel ⟨true, true⟩ [.key, .value, .blockEnd]
        return (k, v) :: (← blockEntries fuel)
      | _ => return (k, .empty) :: (← blockEntries fuel)
    | .blockEnd => do skip; return []
    | _ => failure

/-- Reads the entries of a flow sequence and its end. A key among them starts a mapping of one
entry. -/
def flowItems : (fuel : Nat) → (first : Bool) → Reading (List Node)
  | 0, _ => failure
  | fuel + 1, first => do
    if (← peek) ≠ .flowSequenceEnd && !first then
      if (← peek) = .flowEntry then skip else failure
    match ← peek with
    | .flowSequenceEnd => do skip; return []
    | .key =>
      skip
      let entry ← flowPair fuel
      return .mapping [entry] :: (← flowItems fuel false)
    | _ =>
      let n ← node fuel ⟨false, false⟩
      return n :: (← flowItems fuel false)

/-- Reads the one entry of a mapping in a flow sequence. Where its key is not written, a token is
lost. -/
def flowPair : (fuel : Nat) → Reading (Node × Node)
  | 0 => failure
  | fuel + 1 => do
    let k ← (do
      if [Token.value, .flowEntry, .flowSequenceEnd].contains (← peek) then
        skip
        return .empty
      else node fuel ⟨false, false⟩ : Reading Node)
    match ← peek with
    | .value =>
      skip
      return (k, ← nodeUnless fuel ⟨false, false⟩ [.flowEntry, .flowSequenceEnd])
    | _ => return (k, .empty)

/-- Reads the entries of a flow mapping and its end. -/
def flowEntries : (fuel : Nat) → (first : Bool) → Reading (List (Node × Node))
  | 0, _ => failure
  | fuel + 1, first => do
    if (← peek) ≠ .flowMappingEnd && !first then
      if (← peek) = .flowEntry then skip else failure
    match ← peek with
    | .flowMappingEnd => do skip; return []
    | .key =>
      skip
      let k ← nodeUnless fuel ⟨false, false⟩ [.value, .flowEntry, .flowMappingEnd]
      match ← peek with
      | .value =>
        skip
        let v ← nodeUnless fuel ⟨false, false⟩ [.flowEntry, .flowMappingEnd]
        return (k, v) :: (← flowEntries fuel false)
      | _ => return (k, .empty) :: (← flowEntries fuel false)
    | _ =>
      let k ← node fuel ⟨false, false⟩
      return (k, .empty) :: (← flowEntries fuel false)

end

/-- Reads the directives in front of a document. Every handle may be given once, and the version
once. -/
def directives : (fuel : Nat) → (versioned : Bool) → Reading Unit
  | 0, _ => failure
  | fuel + 1, versioned => do
    match ← peek with
    | .version major minor =>
      if versioned || major ≠ 1 || minor ≠ 1 then failure
      skip
      directives fuel true
    | .tagDirective h stem =>
      if (← get).stems.any (·.1 = h) then failure
      modify fun s => { s with stems := s.stems ++ [(h, stem)] }
      skip
      directives fuel versioned
    | _ => modify fun s => { s with stems := s.stems ++ [("!", "!"), ("!!", coreStem)] }

/-- Reads the first document; there is none if the text ends before it. -/
def document (fuel : Nat) : Reading (Option Node) := do
  match ← peek with
  | .streamEnd => return none
  | .version .. | .tagDirective .. | .documentStart =>
    directives fuel false
    if (← peek) ≠ .documentStart then failure
    skip
    let n ← (do
      match ← peek with
      | .version .. | .tagDirective .. | .documentStart | .documentEnd | .streamEnd => return .empty
      | _ => node fuel ⟨true, false⟩ : Reading Node)
    let _ ← peek
    return some n
  | _ =>
    directives fuel false
    let n ← node fuel ⟨true, false⟩
    let _ ← peek
    return some n

end Reading

/-- What a text holds. -/
inductive Source where
  /-- The text cannot be read. -/
  | malformed
  /-- There is no document. -/
  | empty
  | document (root : Node)

/-- Reads the first document from tokens. -/
def Source.ofTokens (ts : List Token) : Source :=
  match (Reading.document (4 * ts.length + 4)).run' ⟨ts, [], []⟩ with
  | none => .malformed
  | some none => .empty
  | some (some n) => .document n

/-- Reads the first document from a text. -/
def Source.ofText (text : String) : Source :=
  match scan text with
  | none => .malformed
  | some ts => .ofTokens ts

end Lasso.Yaml
