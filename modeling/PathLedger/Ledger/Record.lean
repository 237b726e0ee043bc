import PathLedger.Digest.Blake3
import PathLedger.Operator.Kind
import PathLedger.Value.Json

/-!
# Records

A record is one committed write: what was given, what was stored, under which secret, and how it is
chained to the record before it.

* `Record.contentText` — the text that a record's hash is taken of: its path, operator, expression, value,
  effective secret and the hash before it, as a compact document in this order.
* `Record.contentHash` — the digest of that text.
-/

namespace PathLedger

/-- One committed write. -/
structure Record where
  path : String
  /-- What was done; a plain write has no kind. -/
  operator : Option Operator.Kind
  /-- The input as given. -/
  expression : Value
  /-- What was stored: plain data, a marker or sealed text. -/
  value : Value
  /-- The effective secret of the path, empty in clear. -/
  effectiveSecret : String
  hash : String
  /-- The hash of the record before, empty for the first. -/
  prevHash : String
  /-- Milliseconds on the store's clock. -/
  timestamp : UInt64
deriving DecidableEq, Repr, Inhabited

namespace Record

def operatorJson (r : Record) : Json := Json.ofOption (fun k => .str k.name) r.operator

/-- The document that a record's hash is taken of. -/
def content (r : Record) : Json :=
  .obj [("path", .str r.path), ("operator", r.operatorJson), ("expression", r.expression.tagged),
    ("value", r.value.tagged), ("effective_secret", .str r.effectiveSecret),
    ("prev_hash", .str r.prevHash)]

def contentText (r : Record) : String := r.content.compact

/-- The hash that belongs to a record's content. -/
def contentHash (r : Record) : String := digestText r.contentText

end Record

end PathLedger
