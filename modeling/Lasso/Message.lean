import Lasso.Text.Order
import Lasso.Text.Quoted
import Lasso.Yaml.Content
import Lasso.Yaml.Data
/-!
# Messages

What documents and reports become when they are sent: nested lists and fields whose leaves are texts,
truth values and floating-point numbers. A message is made by writing a text and reading it back, and
it is understood through its text in turn.

* `Message.ofContent?` makes a message of what can be written;
* `Message.json` is the text of a message.
-/

namespace Lasso

inductive Message where
  | null
  | bool (b : Bool)
  | number (x : Double)
  | text (s : String)
  | list (items : List Message)
  | fields (entries : List (String × Message))
  deriving Inhabited

namespace Message

/-! ## 1. From texts -/

mutual

/-- The message of data. Points in time, and maps whose keys are no texts, cannot be sent. -/
def ofData? : Yaml.Data → Option Message
  | .scalar .null => some .null
  | .scalar (.bool b) => some (.bool b)
  | .scalar (.int n) => some (.number (.ofInt n))
  | .scalar (.float x) => some (.number x)
  | .scalar (.text s) => some (.text s)
  | .scalar .time => none
  | .list items => (ofItems? items).map .list
  | .map entries => (ofEntries? entries).map .fields

def ofItems? : List Yaml.Data → Option (List Message)
  | [] => some []
  | d :: rest => do return (← ofData? d) :: (← ofItems? rest)

def ofEntries? : List (Yaml.Meaning × Yaml.Data) → Option (List (String × Message))
  | [] => some []
  | (.text k, d) :: rest => do return (k, ← ofData? d) :: (← ofEntries? rest)
  | _ => none

end

/-- The message of what can be written: its text is read back as if nothing were known about it. -/
def ofContent? (c : Yaml.Content) : Option Message := do
  match Yaml.Source.ofText c.document with
  | .document root =>
    let entries ← Yaml.Data.ofMapping? root
    let sent ← entries.mapM fun (k, d) => do return (k, ← ofData? d)
    return .fields sent
  | _ => none

/-! ## 2. To texts -/

/-- A character between quotes: control characters, quotes and backslashes are escaped. -/
def jsonChar (c : Char) : List Char :=
  if c = '"' || c = '\\' then ['\\', c]
  else if c = '\x08' then ['\\', 'b']
  else if c = '\x0c' then ['\\', 'f']
  else if c = '\n' then ['\\', 'n']
  else if c = '\r' then ['\\', 'r']
  else if c = '\t' then ['\\', 't']
  else if c < ' ' then '\\' :: 'u' :: Text.hex 4 c.toNat
  else [c]

def jsonText (s : String) : String := "\"" ++ String.ofList (s.toList.flatMap jsonChar) ++ "\""

mutual

/-- The text of a message, with the fields in bytewise order of their names. -/
def json : Message → String
  | .null => "null"
  | .bool b => toString b
  | .number x => x.text
  | .text s => jsonText s
  | .list items => "[" ++ ",".intercalate (jsonItems items) ++ "]"
  | .fields entries =>
    "\x7b" ++ ",".intercalate
      (((jsonEntries entries).mergeSort fun a b => !nameLt b.1 a.1).map Prod.snd) ++ "\x7d"

def jsonItems : List Message → List String
  | [] => []
  | m :: rest => m.json :: jsonItems rest

def jsonEntries : List (String × Message) → List (String × String)
  | [] => []
  | (k, m) :: rest => (k, jsonText k ++ ":" ++ m.json) :: jsonEntries rest

end

end Message

end Lasso
