import Lasso.Document.Basic
import Lasso.Document.Error
import Lasso.Yaml.Reader
/-!
# Reading documents

Documents are written as nested records. A field that is not known is refused.

Main definition: `Document.parse`. It differs from the usual reader in two things. A `!!binary` scalar has
to stand for a text, so one whose bytes are not UTF-8 is refused and not kept as bytes. And aliases are
followed however much of the document they make up: there is no limit beyond which it is refused.
-/

namespace Lasso.Document

open Yaml (Reader)
open Yaml.Reader (field record list text bool int optional table)

/-! ## 1. Parts -/

/-- Several texts. -/
def texts : Reader (List String) := list text

def transition : Reader Transition := record true {}
  [("from", field text fun a t => { t with source := a }),
   ("action", field text fun a t => { t with action := a }),
   ("to", field text fun a t => { t with target := a })]

def system : Reader System := record true {}
  [("states", field texts fun a s => { s with states := a }),
   ("initial", field texts fun a s => { s with initial := a }),
   ("actions", field texts fun a s => { s with actions := a }),
   ("propositions", field texts fun a s => { s with propositions := a }),
   ("transitions", field (list transition) fun a s => { s with transitions := a }),
   ("labels", field (table texts) fun a s => { s with labels := sortedTable a })]

def step : Reader Step := record true {}
  [("from", field text fun a s => { s with source := a }),
   ("condition", field text fun a s => { s with condition := a }),
   ("action", field text fun a s => { s with action := a }),
   ("to", field text fun a s => { s with target := a })]

def program : Reader Program := record true {}
  [("name", field text fun a p => { p with name := a }),
   ("locations", field texts fun a p => { p with locations := a }),
   ("initial", field texts fun a p => { p with initial := a }),
   ("initializations", field (list texts) fun a p => { p with initializations := a }),
   ("transitions", field (list step) fun a p => { p with steps := a })]

def edge : Reader Edge := record true {}
  [("from", field text fun a e => { e with source := a }),
   ("to", field text fun a e => { e with target := a }),
   ("any", field bool fun a e => { e with any := a }),
   ("empty", field bool fun a e => { e with empty := a }),
   ("label", field texts fun a e => { e with label := a }),
   ("holds", field texts fun a e => { e with holds := a })]

def automaton : Reader Automaton := record true {}
  [("states", field texts fun a m => { m with states := a }),
   ("initial", field texts fun a m => { m with initial := a }),
   ("accepting", field texts fun a m => { m with accepting := a }),
   ("edges", field (list edge) fun a m => { m with edges := a })]

def property : Reader Property := record true {}
  [("name", field text fun a p => { p with name := a }),
   ("eventually", field texts fun a p => { p with eventually := a }),
   ("thenAlways", field texts fun a p => { p with thenAlways := a }),
   ("infinitelyOften", field texts fun a p => { p with infinitelyOften := a }),
   ("never", field texts fun a p => { p with never := a }),
   ("automaton", field (optional automaton) fun a p => { p with automaton? := a })]

/-! ## 2. Whole documents -/

def document : Reader Document := record true {}
  [("name", field text fun a d => { d with name := a }),
   ("system", field (optional system) fun a d => { d with system? := a }),
   ("programs", field (list program) fun a d => { d with programs := a }),
   ("channelCapacity", field int fun a d => { d with channelCapacity := a }),
   ("observe", field texts fun a d => { d with observe := a }),
   ("properties", field (list property) fun a d => { d with properties := a })]

/-- Reads a document. Whether it makes sense is not asked. -/
def parse (text : String) : Except DocumentError Document :=
  match Yaml.Source.ofText text with
  | .malformed => .error .malformed
  | .empty => .error .empty
  | .document root =>
    match document root with
    | none => .error .malformed
    | some d? => .ok (d?.getD {})

end Lasso.Document
