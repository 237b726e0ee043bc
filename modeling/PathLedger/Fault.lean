/-!
# Faults

Everything that a call can refuse, as causes, with one function for the wording.

* `Fault` — the causes.
* `Fault.message` — the text shown for a cause.
* `Fault.kind` — the name of its class.
-/

namespace PathLedger

/-- Why a call was refused. -/
inductive Fault where
  /-- A user name breaks the naming rules. -/
  | invalidIdentity (detail : String)
  /-- An operator definition is malformed. -/
  | invalidOperator (detail : String)
  /-- The symbol that defines operators cannot be redefined. -/
  | protectedOperator (symbol : String)
  /-- A declaration carries a malformed payload. -/
  | invalidDeclaration (path reason : String)
  /-- A record does not name its predecessor's hash. -/
  | chainBroken (position : Nat)
  /-- A record's hash is not the hash of its content. -/
  | hashMismatch (position : Nat)
  /-- A value could not be written. -/
  | serialization (detail : String)
  /-- A text or a row of bytes could not be read. -/
  | deserialization (detail : String)
  /-- A file could not be used. -/
  | io (detail : String)
deriving DecidableEq, Repr

namespace Fault

def message : Fault → String
  | .invalidIdentity d => "Invalid identity username: " ++ d
  | .invalidOperator d => "Invalid operator definition: " ++ d
  | .protectedOperator s => "Operator symbol '" ++ s ++ "' is protected"
  | .invalidDeclaration p r => "Invalid declaration at '" ++ p ++ "': " ++ r
  | .chainBroken i => "Ledger chain broken at record " ++ toString i
  | .hashMismatch i => "Ledger hash mismatch at record " ++ toString i
  | .serialization d => "Serialization error: " ++ d
  | .deserialization d => "Deserialization error: " ++ d
  | .io d => "I/O error: " ++ d

/-- The class of a fault. -/
def kind : Fault → String
  | .invalidIdentity _ => "InvalidIdentity"
  | .invalidOperator _ => "InvalidOperator"
  | .protectedOperator _ => "ProtectedOperator"
  | .invalidDeclaration _ _ => "InvalidDeclaration"
  | .chainBroken _ => "ChainBroken"
  | .hashMismatch _ => "HashMismatch"
  | .serialization _ => "SerializationError"
  | .deserialization _ => "DeserializationError"
  | .io _ => "IoError"

end Fault

end PathLedger
