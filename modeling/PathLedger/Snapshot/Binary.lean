import PathLedger.Fault
import PathLedger.Snapshot.Basic
import PathLedger.Wire.Record

/-!
# Snapshots as bytes

A header of four magic bytes and a version, then the parts of the snapshot.

* `Snapshot.Header` — the header.
* `Snapshot.toBytes`, `Snapshot.ofBytes` — writing and reading. Bytes behind the last part are ignored.
-/

namespace PathLedger.Snapshot

/-- What stands in front of every snapshot. -/
structure Header where
  magic : Bytes
  version : UInt8
deriving DecidableEq, Repr

namespace Header

def magicBytes : Bytes := [77, 69, 77, 88]

def currentVersion : UInt8 := 1

def length : Nat := 5

def current : Header := ⟨magicBytes, currentVersion⟩

def toBytes (h : Header) : Bytes := h.magic ++ [h.version]

/-- The header in front of a row of bytes. -/
def ofBytes (b : Bytes) : Except Fault Header :=
  match b.drop 4 with
  | version :: _ => .ok ⟨b.take 4, version⟩
  | [] => .error (.deserialization "Header too short")

/-- Whether a header belongs to a snapshot of the current version. -/
def validate (h : Header) : Except Fault Unit :=
  if h.magic != magicBytes then .error (.deserialization "Invalid magic bytes")
  else if h.version != currentVersion then
    .error (.deserialization ("Unsupported version: " ++ toString h.version.toNat ++ " (expected " ++
      toString currentVersion.toNat ++ ")"))
  else .ok ()

end Header

/-- The largest number of bytes that is read. -/
def maxSize : Nat := 500 * 1024 * 1024

/-- A table of texts. -/
def encodeTable (f : α → Bytes) (d : Dict String α) : Bytes :=
  Wire.encodeList (Wire.encodePair Wire.encodeText f) d.entries

/-- A table; of two entries at one key the later stays. -/
def decodeTable (d : Wire.Decoder α) : Wire.Decoder (Dict String α) := fun b => do
  let (entries, r) ← Wire.decodeList (Wire.decodePair Wire.decodeText d) b
  pure (.ofList entries, r)

/-- The parts of a snapshot one after another. -/
def encode (s : Snapshot) : Bytes :=
  Wire.encodeList Wire.encodeRecord s.ledger ++ encodeTable Wire.encodeText s.secrets ++
    encodeTable Wire.encodeText s.noises ++ encodeTable Wire.encodeValue s.branches ++
    encodeTable Wire.encodeKind s.operators

def decode : Wire.Decoder Snapshot := fun b => do
  let (ledger, b) ← Wire.decodeList Wire.decodeRecord b
  let (secrets, b) ← decodeTable Wire.decodeText b
  let (noises, b) ← decodeTable Wire.decodeText b
  let (branches, b) ← decodeTable Wire.decodeValue b
  let (operators, b) ← decodeTable Wire.decodeKind b
  pure (⟨ledger, secrets, noises, branches, operators⟩, b)

def toBytes (s : Snapshot) : Bytes := Header.current.toBytes ++ encode s

/-- The snapshot in a row of bytes. The size and the header are checked first. -/
def ofBytes (b : Bytes) : Except Fault Snapshot :=
  if b.length < Header.length then
    .error (.deserialization ("Data too short: minimum " ++ toString Header.length ++ " bytes required"))
  else if maxSize < b.length then
    .error (.deserialization ("Data size " ++ toString b.length ++ " bytes exceeds maximum allowed " ++
      toString maxSize ++ " bytes"))
  else
    match (Header.ofBytes b).bind Header.validate with
    | .error f => .error f
    | .ok () =>
      match decode (b.drop Header.length) with
      | .ok (s, _) => .ok s
      | .error f => .error (.deserialization ("Failed to decode snapshot: " ++ f.message))

end PathLedger.Snapshot
