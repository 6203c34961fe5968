import Lasso.Document.Basic
import Lasso.Text.Natural
import Lasso.Text.Quoted
import Lasso.Yaml.Content
/-!
# Writing documents

The text of a document names all fields that must be given, and the others where they are not empty.
A document is identified by a checksum of its text.

* `Document.content` is what is written, `Document.yaml` its text;
* `Document.fingerprint` identifies it.
-/

namespace Lasso.Document

open Yaml (Content)

/-! ## 1. Parts -/

/-- Several texts. -/
def textsContent (xs : List String) : Content := .list (xs.map .text)

/-- A field that is written where it is not empty. -/
def textsField (name : String) (xs : List String) : List (String × Content) :=
  if xs.isEmpty then [] else [(name, textsContent xs)]

/-- A field that is written where it has parts. -/
def listField {α : Type} (name : String) (f : α → Content) (xs : List α) : List (String × Content) :=
  if xs.isEmpty then [] else [(name, .list (xs.map f))]

/-- A flag that is written where it is set. -/
def flagField (name : String) (b : Bool) : List (String × Content) :=
  if b then [(name, .bool true)] else []

def Transition.content (t : Transition) : Content := .record
  [("from", .text t.source), ("action", .text t.action), ("to", .text t.target)]

/-- The labels of states, in the natural order of the states. -/
def labelsField (labels : List (String × List String)) : List (String × Content) :=
  if labels.isEmpty then []
  else [("labels", .record ((Text.sortNaturally labels).map fun (s, ps) => (s, textsContent ps)))]

def System.content (s : System) : Content := .record <|
  [("states", textsContent s.states), ("initial", textsContent s.initial)] ++
    textsField "actions" s.actions ++ textsField "propositions" s.propositions ++
    listField "transitions" Transition.content s.transitions ++ labelsField s.labels

def Step.content (s : Step) : Content := .record <|
  [("from", .text s.source)] ++
    (if s.condition.isEmpty then [] else [("condition", .text s.condition)]) ++
    [("action", .text s.action), ("to", .text s.target)]

def Program.content (p : Program) : Content := .record <|
  [("name", .text p.name), ("locations", textsContent p.locations),
    ("initial", textsContent p.initial)] ++
    listField "initializations" textsContent p.initializations ++
    listField "transitions" Step.content p.steps

def Edge.content (e : Edge) : Content := .record <|
  [("from", .text e.source), ("to", .text e.target)] ++ flagField "any" e.any ++
    flagField "empty" e.empty ++ textsField "label" e.label ++ textsField "holds" e.holds

def Automaton.content (a : Automaton) : Content := .record
  [("states", textsContent a.states), ("initial", textsContent a.initial),
    ("accepting", textsContent a.accepting), ("edges", .list (a.edges.map Edge.content))]

def Property.content (p : Property) : Content := .record <|
  [("name", .text p.name)] ++ textsField "eventually" p.eventually ++
    textsField "thenAlways" p.thenAlways ++ textsField "infinitelyOften" p.infinitelyOften ++
    textsField "never" p.never ++
    (match p.automaton? with
      | some a => [("automaton", a.content)]
      | none => [])

/-! ## 2. Whole documents -/

/-- What is written of a document. -/
def content (d : Document) : Content := .record <|
  [("name", .text d.name)] ++
    (match d.system? with
      | some s => [("system", s.content)]
      | none => []) ++
    listField "programs" Program.content d.programs ++
    (if d.channelCapacity = 0 then [] else [("channelCapacity", .int d.channelCapacity)]) ++
    textsField "observe" d.observe ++
    [("properties", .list (d.properties.map Property.content))]

/-- The text of a document. -/
def yaml (d : Document) : String := d.content.document

/-- A checksum of bytes: each byte is mixed in, then the sum is multiplied by a prime. -/
def checksum (b : Bytes) : UInt64 :=
  b.foldl (fun h x => (h ^^^ x.toUInt64) * 1099511628211) 14695981039346656037

/-- What identifies a document: the checksum of its text in hexadecimal. -/
def fingerprint (d : Document) : String :=
  String.ofList (Text.hex 16 (checksum (.ofString d.yaml)).toNat)

end Lasso.Document
