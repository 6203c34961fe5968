import Lasso.Document.Read
import Lasso.Document.Write
import Lasso.Message
/-!
# Sending documents
-/

namespace Lasso.Document

/-- The message of a document. -/
def send? (d : Document) : Option Message := Message.ofContent? d.content

/-- The document that a message carries. -/
def receive (m : Message) : Except DocumentError Document := parse m.json

end Lasso.Document
