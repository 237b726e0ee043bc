import PathLedger.Json.Parser
import PathLedger.Value.Json

/-!
# Values on the command line

A value is given as a document; whatever is no document is text.
-/

namespace PathLedger.Command

/-- The value that an argument spells: the plain reading of a document, or else the argument as text. -/
def readValue (raw : String) : Value :=
  match Json.parse? raw with
  | some j => .ofJson j
  | none => .text raw

end PathLedger.Command
