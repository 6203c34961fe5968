import Lasso.Report
/-!
# The store of reports

Keeps the reports on documents by the fingerprints of the documents. Reports are kept as the messages
that carry them.

* `Store.put?`, `Store.get`, `Store.delete` and `Store.fingerprints`.
-/

namespace Lasso

/-- The messages that are kept, in the order of their fingerprints. -/
structure Store where
  entries : List (String × Message) := []

/-- Why reports cannot be given. -/
inductive StoreError where
  | notFound (fingerprint : String)
  /-- The message that is kept carries no reports. -/
  | unreadable (cause : DocumentError)
  deriving DecidableEq

/-- The report of a failure. -/
def StoreError.message : StoreError → String
  | .notFound fp => "store: no reports for fingerprint: " ++ fp
  | .unreadable e => e.message

namespace Store

/-- Keeps a message. -/
def insert (s : Store) (fingerprint : String) (m : Message) : Store :=
  ⟨putSorted fingerprint m s.entries⟩

/-- Keeps reports, unless they cannot be sent. -/
def put? (s : Store) (fingerprint : String) (rs : List Report) : Option Store :=
  (Report.send? rs).map (s.insert fingerprint)

/-- The message that is kept. -/
def find? (s : Store) (fingerprint : String) : Option Message := s.entries.lookup fingerprint

/-- The reports that are kept. -/
def get (s : Store) (fingerprint : String) : Except StoreError (List Report) :=
  match s.find? fingerprint with
  | some m => (Report.receive m).mapError .unreadable
  | none => .error (.notFound fingerprint)

/-- Forgets reports. -/
def delete (s : Store) (fingerprint : String) : Store :=
  ⟨s.entries.filter fun e => e.1 ≠ fingerprint⟩

/-- The fingerprints of the reports that are kept. -/
def fingerprints (s : Store) : List String := s.entries.map Prod.fst

end Store

end Lasso
