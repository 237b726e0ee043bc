import PathLedger.Ledger.Record
import PathLedger.Wire.Value

/-!
# The binary form of records

The parts of a record one after another, in the order of their declaration.
-/

namespace PathLedger.Wire

/-- The number of an operator kind. -/
def kindNumber (k : Operator.Kind) : Nat := Operator.Kind.all.idxOf k

def encodeKind (k : Operator.Kind) : Bytes := varint (kindNumber k)

/-- An operator kind has one of the known numbers. -/
def decodeKind : Decoder Operator.Kind := fun b => do
  let (n, r) ← decodeVarint .w32 b
  match Operator.Kind.all[n]? with
  | some k => pure (k, r)
  | none => throw .unknownVariant

def encodeRecord (r : Record) : Bytes :=
  encodeText r.path ++ encodeOption encodeKind r.operator ++ encodeValue r.expression ++
    encodeValue r.value ++ encodeText r.effectiveSecret ++ encodeText r.hash ++
    encodeText r.prevHash ++ varint r.timestamp.toNat

def decodeRecord : Decoder Record := fun b => do
  let (path, b) ← decodeText b
  let (operator, b) ← decodeOption decodeKind b
  let (expression, b) ← decodeValue b
  let (value, b) ← decodeValue b
  let (effectiveSecret, b) ← decodeText b
  let (hash, b) ← decodeText b
  let (prevHash, b) ← decodeText b
  let (timestamp, b) ← decodeVarint .w64 b
  pure (⟨path, operator, expression, value, effectiveSecret, hash, prevHash, UInt64.ofNat timestamp⟩, b)

end PathLedger.Wire
