import PathLedger.Value.Basic
import PathLedger.Wire.Basic

/-!
# The binary form of values

A value starts with the number of its kind. Lists and objects follow with their length and their
contents; objects list their fields in order and are put in order when they are read.
-/

namespace PathLedger.Wire

mutual

/-- The bytes of a value. -/
def encodeValue : Value → Bytes
  | .null => [0]
  | .bool b => 1 :: encodeBool b
  | .number x => 2 :: encodeNumber x
  | .text s => 3 :: encodeText s
  | .list items => 4 :: (varint items.length ++ encodeItems items)
  | .object fields => 5 :: (varint fields.length ++ encodeFields fields)
  | .pointer t => 6 :: encodeText t
  | .identity n => 7 :: encodeText n
  | .ciphertext b => 8 :: encodeText b

def encodeItems : List Value → Bytes
  | [] => []
  | v :: r => encodeValue v ++ encodeItems r

def encodeFields : List (String × Value) → Bytes
  | [] => []
  | (k, v) :: r => encodeText k ++ encodeValue v ++ encodeFields r

end

/-- The content of a value whose kind has been read. -/
def decodeContent (nested : Decoder Value) (kind : Nat) (b : Bytes) : Except Fault (Value × Bytes) :=
  if kind = 0 then .ok (.null, b)
  else if kind = 1 then (decodeBool b).map fun p => (.bool p.1, p.2)
  else if kind = 2 then (decodeNumber b).map fun p => (.number p.1, p.2)
  else if kind = 3 then (decodeText b).map fun p => (.text p.1, p.2)
  else if kind = 4 then (decodeList nested b).map fun p => (.list p.1, p.2)
  else if kind = 5 then
    (decodeList (decodePair decodeText nested) b).map fun p => (.object (Entries.ofList p.1), p.2)
  else if kind = 6 then (decodeText b).map fun p => (.pointer p.1, p.2)
  else if kind = 7 then (decodeText b).map fun p => (.identity p.1, p.2)
  else if kind = 8 then (decodeText b).map fun p => (.ciphertext p.1, p.2)
  else .error .unknownVariant

/-- A value with at most the given nesting. -/
def decodeValueWithin : Nat → Decoder Value
  | 0, _ => .error .endOfBuffer
  | depth + 1, b => do
    let (kind, r) ← decodeVarint .w32 b
    decodeContent (decodeValueWithin depth) kind r

/-- A value. Every level of nesting takes a byte, so the number of bytes bounds the nesting. -/
def decodeValue : Decoder Value := fun b => decodeValueWithin (b.length + 1) b

end PathLedger.Wire
