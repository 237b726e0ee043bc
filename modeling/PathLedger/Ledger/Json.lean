import PathLedger.Ledger.Record

/-!
# Records as documents

The document of a record has a field for each part of it, values in tagged form.

* `Record.tagged` — the document of a record.
* `Record.ofTagged?` — the record of a document. A row of the eight parts counts as well, and the operator
  may be left out.
-/

namespace PathLedger

/-- The kind that a document names, as a text or as a lone field without content. -/
def Operator.Kind.ofJson? : Json → Option Operator.Kind
  | .str s => Operator.Kind.named? s
  | .obj [(s, .null)] => Operator.Kind.named? s
  | _ => none

/-- A kind that may be missing. -/
def Operator.Kind.ofOptionalJson? : Json → Option (Option Operator.Kind)
  | .null => some none
  | j => (Operator.Kind.ofJson? j).map some

/-- A count of milliseconds: a whole number of 64 bits. -/
def Clock.reading? : Json → Option UInt64
  | .int n => if 0 ≤ n && n < Int.pow 2 64 then some (UInt64.ofNat n.toNat) else none
  | _ => none

namespace Record

/-- The document of a record. -/
def tagged (r : Record) : Json :=
  .obj [("path", .str r.path), ("operator", r.operatorJson), ("expression", r.expression.tagged),
    ("value", r.value.tagged), ("effective_secret", .str r.effectiveSecret), ("hash", .str r.hash),
    ("prev_hash", .str r.prevHash), ("timestamp", .int r.timestamp.toNat)]

/-- The record of its eight parts. -/
def ofParts? (path operator expression value effectiveSecret hash prevHash timestamp : Json) :
    Option Record := do
  let path ← path.asString?
  let operator ← Operator.Kind.ofOptionalJson? operator
  let expression ← Value.ofTagged? expression
  let value ← Value.ofTagged? value
  let effectiveSecret ← effectiveSecret.asString?
  let hash ← hash.asString?
  let prevHash ← prevHash.asString?
  let timestamp ← Clock.reading? timestamp
  pure ⟨path, operator, expression, value, effectiveSecret, hash, prevHash, timestamp⟩

/-- The record of a document. Further fields are ignored. -/
def ofTagged? : Json → Option Record
  | .arr [path, operator, expression, value, effectiveSecret, hash, prevHash, timestamp] =>
    ofParts? path operator expression value effectiveSecret hash prevHash timestamp
  | .obj fields => do
    let part := fun (name : String) => (Json.obj fields).field? name
    ofParts? (← part "path") ((part "operator").getD .null) (← part "expression") (← part "value")
      (← part "effective_secret") (← part "hash") (← part "prev_hash") (← part "timestamp")
  | _ => none

end Record

end PathLedger
