import Lasso.Document.Transport
import Lasso.Document.Verify
import Lasso.Store
/-!
# The service

Verifies documents on request. If it has a store, it keeps the reports and answers a request for the
same document from there.

* `Service.verify`, `Service.reports` and `Service.evaluatorNames` answer requests;
* `Client.verify` and `Client.reports` send them and read the answers.

A request to verify looks into the store, computes, and writes to the store. These are steps of their
own (`Service.stored?`, `Service.compute`, `Service.keep`), between which other requests may run.
-/

namespace Lasso

/-! ## 1. Refusals -/

/-- The kinds of refusals. -/
inductive StatusCode where
  | invalidArgument
  | notFound
  | resourceExhausted
  | canceled
  | unavailable
  | internal
  deriving DecidableEq, Repr

/-- Why the service refuses a request. -/
structure Status where
  code : StatusCode
  message : String
  deriving DecidableEq, Repr

/-- The code for a failed verification. -/
def VerifyError.code : VerifyError → StatusCode
  | .checking _ .canceled => .canceled
  | .checking _ (.writing _) => .internal
  | .noPrograms => .internal
  | .unfolding _ c =>
    match c with
    | .initialization _ _ | .step _ _ _ => .invalidArgument
    | .canceled _ => .canceled
    | .limit _ _ => .resourceExhausted
    | .endless _ => .internal

def DocumentFailure.status (e : DocumentFailure) : Status :=
  match e with
  | .refused _ => ⟨.invalidArgument, e.message⟩
  | .failed c => ⟨c.code, e.message⟩

def DocumentError.status (e : DocumentError) : Status := ⟨.invalidArgument, e.message⟩

def StoreError.status (e : StoreError) : Status :=
  match e with
  | .notFound _ => ⟨.notFound, e.message⟩
  | .unreadable _ => ⟨.invalidArgument, e.message⟩

/-! ## 2. Requests -/

/-- A service: how it verifies, and what it keeps. -/
structure Service where
  options : VerifyOptions := {}
  /-- The evaluators for all documents; without them each document has its own. -/
  evaluators? : Option Evaluators := none
  store? : Option Store := none

namespace Service

/-- The message of reports, which is not always possible. -/
def reply (rs : List Report) : Except Status Message :=
  match Report.send? rs with
  | some m => .ok m
  | none => .error ⟨.internal, "yaml"⟩

/-- The document that a request carries, if it has no flaws. -/
def accept (request : Message) : Except Status Document := do
  let d ← (Document.receive request).mapError (·.status)
  d.validate.mapError (·.status)
  return d

/-- The reports that are kept for a document, if there are any. -/
def stored? (s : Service) (d : Document) : Except Status (Option (List Report)) :=
  match s.store? with
  | none => .ok none
  | some store =>
    match store.get d.fingerprint with
    | .ok rs => .ok (some rs)
    | .error (.notFound _) => .ok none
    | .error e => .error e.status

/-- The reports on a document. -/
def compute (s : Service) (canceled : Bool) (d : Document) : Except Status (List Report) :=
  ((d.verify { s.options with canceled := canceled } s.evaluators?).map (·.reports)).mapError (·.status)

/-- Keeps the reports on a document, if there is a store and they can be sent. -/
def keep (s : Service) (d : Document) (rs : List Report) : Service :=
  match s.store? with
  | none => s
  | some store => { s with store? := some ((store.put? d.fingerprint rs).getD store) }

/-- Answers a request to verify a document. -/
def verify (s : Service) (canceled : Bool) (request : Message) : Except Status Message × Service :=
  match accept request with
  | .error e => (.error e, s)
  | .ok d =>
    match s.stored? d with
    | .error e => (.error e, s)
    | .ok (some rs) => (reply rs, s)
    | .ok none =>
      match s.compute canceled d with
      | .error e => (.error e, s)
      | .ok rs => (reply rs, s.keep d rs)

/-- The fingerprint that a request names; an empty text if it names none. -/
def fingerprintOf : Message → String
  | .fields es =>
    match es.lookup "fingerprint" with
    | some (.text s) => s
    | _ => ""
  | _ => ""

/-- Answers a request for the reports that are kept under a fingerprint. -/
def reports (s : Service) (request : Message) : Except Status Message := do
  let fp := fingerprintOf request
  if fp.isEmpty then throw ⟨.invalidArgument, "missing fingerprint"⟩
  match s.store? with
  | none => throw ⟨.unavailable, "no report store configured"⟩
  | some store => reply (← (store.get fp).mapError (·.status))

/-- The names of the families of conditions and of actions. -/
def evaluatorNames : List String × List String :=
  let ev : Evaluators := {}
  (ev.conditions.map (·.name), ev.actions.map (·.name))

end Service

/-! ## 3. Clients -/

/-- Why a client gets no reports. -/
inductive ClientError where
  /-- The request cannot be sent. -/
  | unsendable
  | refused (status : Status)
  | unreadable (cause : DocumentError)
  deriving DecidableEq

namespace Client

/-- Reads the reports that an answer carries. -/
def read (r : Except Status Message) : Except ClientError (List Report) :=
  match r with
  | .error e => .error (.refused e)
  | .ok m => (Report.receive m).mapError .unreadable

/-- Sends a document to be verified. -/
def verify (s : Service) (d : Document) : Except ClientError (List Report) × Service :=
  match d.send? with
  | none => (.error .unsendable, s)
  | some m =>
    let (r, s) := s.verify false m
    (read r, s)

/-- Asks for the reports that are kept under a fingerprint. -/
def reports (s : Service) (fingerprint : String) : Except ClientError (List Report) :=
  read (s.reports (.fields [("fingerprint", .text fingerprint)]))

end Client

end Lasso
