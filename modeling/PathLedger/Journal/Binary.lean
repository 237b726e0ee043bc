import PathLedger.Journal.Basic
import PathLedger.Snapshot.Binary

/-!
# Journals as bytes

A file that holds a journal starts with a heading: nine magic bytes, and further on the version of the
format. Its tables follow one after another. An empty file is a journal in which nothing has been saved.

* `Journal.toBytes`, `Journal.ofBytes` — a journal as a file and back.
* `Journal.Damage` — why a file holds no journal.
-/

namespace PathLedger.Journal

/-- The magic bytes of journals. -/
def magicBytes : Bytes := [0x72, 0x65, 0x64, 0x62, 0x1a, 0x0a, 0xa9, 0x0d, 0x0a]

/-- The version of the format. -/
def version : Nat := 3

/-- How many bytes the heading takes. -/
def headingSize : Nat := 320

/-- Where in the heading the version stands. -/
def versionPlace : Nat := 64

/-- The bytes before the tables. -/
def heading : Bytes :=
  Bytes.padTo versionPlace magicBytes ++ UInt8.ofNat version ::
    List.replicate (headingSize - versionPlace - 1) 0

/-- Why a file holds no journal. -/
inductive Damage where
  | wrongMagic
  | cutShort
  | outdated (found : Nat)
  | unknownVersion (found : Nat)
deriving DecidableEq, Repr

def Damage.message : Damage → String
  | .wrongMagic => "I/O error: Not a redb database: magic number mismatch"
  | .cutShort => "I/O error: failed to fill whole buffer"
  | .outdated found =>
    "Manual upgrade required. Expected file format version " ++ toString version ++
      ", but file is version " ++ toString found
  | .unknownVersion found =>
    "DB corrupted: Expected file format version <= " ++ toString version ++ ", found " ++ toString found

/-- What is wrong with the heading of a file, if anything is. -/
def headingDamage? (b : Bytes) : Option Damage :=
  let found := (b.getD versionPlace 0).toNat
  if b.take magicBytes.length ≠ magicBytes then some .wrongMagic
  else if b.length < headingSize then some .cutShort
  else if found = version then none
  else if 0 < found ∧ found < version then some (.outdated found)
  else some (.unknownVersion found)

/-- A row of bytes as a part of others: its length, then the bytes. -/
def encodeBlock (b : Bytes) : Bytes := Wire.varint b.length ++ b

/-- A row of bytes as a part of others. -/
def decodeBlock : Wire.Decoder Bytes := fun b => do
  let (n, r) ← Wire.decodeVarint .w64 b
  Wire.decodeBytes n r

/-- The bytes of a journal. Records are listed without their positions, which count from zero. -/
def toBytes (j : Journal) : Bytes :=
  heading ++ Wire.encodeList encodeBlock (j.records.entries.map Prod.snd) ++
    Snapshot.encodeTable Wire.encodeText j.secrets ++ Snapshot.encodeTable Wire.encodeText j.noises ++
    Snapshot.encodeTable encodeBlock j.branches ++ Snapshot.encodeTable Wire.encodeText j.operators

def decode : Wire.Decoder Journal := fun b => do
  let (records, b) ← Wire.decodeList decodeBlock b
  let (secrets, b) ← Snapshot.decodeTable Wire.decodeText b
  let (noises, b) ← Snapshot.decodeTable Wire.decodeText b
  let (branches, b) ← Snapshot.decodeTable decodeBlock b
  let (operators, b) ← Snapshot.decodeTable Wire.decodeText b
  pure (⟨.ofList (records.zipIdx.map fun e => (e.2, e.1)), secrets, noises, branches, operators⟩, b)

/-- The journal that a file holds, or why it holds none. -/
def ofBytes (b : Bytes) : Except Damage Journal :=
  if b.isEmpty then .ok .empty
  else
    match headingDamage? b with
    | some d => .error d
    | none => ((decode (b.drop headingSize)).mapError fun _ => Damage.cutShort).map Prod.fst

end PathLedger.Journal
