import Lasso.Document.Error
import Lasso.Message
/-!
# Reports

The outcome of checking one property of a document.

* `Report.text` says it in a line;
* `Report.send?` and `Report.receive` turn reports into a message and back.
-/

namespace Lasso

structure Report where
  document : String := ""
  fingerprint : String := ""
  property : String := ""
  holds : Bool := false
  description : String := ""
  /-- The states that lead to the cycle of a run that violates the property. -/
  stem : List String := []
  cycle : List String := []
  deriving DecidableEq, Repr, Inhabited

namespace Report

/-- The outcome in a line. -/
def text (r : Report) : String :=
  r.document ++ "/" ++ r.property ++
    if r.holds then ": holds"
    else ": violated by " ++ " ".intercalate r.stem ++ " (" ++ " ".intercalate r.cycle ++ ")^ω"

/-! ## 1. Sending -/

open Yaml (Content Reader)
open Yaml.Reader (field record list)

/-- What is written of a report. -/
def content (r : Report) : Content :=
  let states (name : String) (xs : List String) : List (String × Content) :=
    if xs.isEmpty then [] else [(name, .list (xs.map .text))]
  .record <|
    [("document", .text r.document), ("fingerprint", .text r.fingerprint),
      ("property", .text r.property), ("holds", .bool r.holds),
      ("description", .text r.description)] ++ states "prefix" r.stem ++ states "cycle" r.cycle

/-- The message of reports. -/
def send? (rs : List Report) : Option Message :=
  Message.ofContent? (.record [("reports", .list (rs.map content))])

/-! ## 2. Receiving -/

def report : Reader Report := record false {}
  [("document", field Reader.text fun a r => { r with document := a }),
   ("fingerprint", field Reader.text fun a r => { r with fingerprint := a }),
   ("property", field Reader.text fun a r => { r with property := a }),
   ("holds", field Reader.bool fun a r => { r with holds := a }),
   ("description", field Reader.text fun a r => { r with description := a }),
   ("prefix", field (list Reader.text) fun a r => { r with stem := a }),
   ("cycle", field (list Reader.text) fun a r => { r with cycle := a })]

/-- A list of reports under its name. Other names do not count. -/
def reports : Reader (List Report) := record false []
  [("reports", field (list report) fun a _ => a)]

/-- The reports that a message carries. -/
def receive (m : Message) : Except DocumentError (List Report) :=
  match Yaml.Source.ofText m.json with
  | .malformed => .error .malformed
  | .empty => .ok []
  | .document root =>
    match reports root with
    | none => .error .malformed
    | some rs? => .ok (rs?.getD [])

end Report

end Lasso
