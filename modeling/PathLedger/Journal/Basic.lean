import PathLedger.Fault
import PathLedger.Snapshot.Basic
import PathLedger.Wire.Record

/-!
# Journals

A journal keeps the last saved snapshot in ordered tables. Records are kept one by one under their
position, so that a save adds only those that are new, as long as the kept ones are still the front
of the ledger.

* `Journal.save` — a snapshot saved; the other tables are always written anew.
* `Journal.load` — the snapshot that was saved last.
-/

namespace PathLedger

/-- The tables of a journal: records by position and branches in binary form, texts as they are. -/
structure Journal where
  records : Dict Nat Bytes
  secrets : Dict String String
  noises : Dict String String
  branches : Dict String Bytes
  /-- The name of a kind for every symbol. -/
  operators : Dict String String
deriving DecidableEq

namespace Journal

/-- The journal in which nothing has been saved. -/
def empty : Journal := ⟨.empty, .empty, .empty, .empty, .empty⟩

instance : Inhabited Journal := ⟨empty⟩

/-- How many records a save wrote. -/
inductive Saved where
  /-- The kept records stayed, and this many were added. -/
  | appended (n : Nat)
  /-- All of this many records were written anew. -/
  | rewritten (n : Nat)
deriving DecidableEq, Repr

def count (j : Journal) : Nat := j.records.size

/-- What a decoder reads from the front of a row of bytes. -/
def readFront (d : Wire.Decoder α) (b : Bytes) : Except Fault α :=
  match d b with
  | .ok (a, _) => .ok a
  | .error f => .error (.deserialization f.message)

/-- Whether the kept records are the front of a ledger: it is no shorter, and at the place of the last kept
record it has one with the same hash. -/
def continues (j : Journal) (ledger : List Record) : Except Fault Bool :=
  if ledger.length < j.count then .ok false
  else
    match j.records.entries.getLast? with
    | none => .ok true
    | some (_, bytes) =>
      (readFront Wire.decodeRecord bytes).map fun last =>
        (ledger[j.count - 1]?).any fun r => r.hash == last.hash

/-- The table of records with those from a position on put in. -/
def putRecords (table : Dict Nat Bytes) (start : Nat) (ledger : List Record) : Dict Nat Bytes :=
  ((ledger.zipIdx).drop start).foldl (fun t e => t.insert e.2 (Wire.encodeRecord e.1)) table

/-- The journal with a snapshot saved, and how its records were written. -/
def save (j : Journal) (s : Snapshot) : Except Fault (Journal × Saved) :=
  (j.continues s.ledger).map fun continued =>
    let records :=
      if continued then putRecords j.records j.count s.ledger else putRecords .empty 0 s.ledger
    let saved :=
      if continued then Saved.appended (s.ledger.length - j.count) else .rewritten s.ledger.length
    (⟨records, s.secrets, s.noises, s.branches.mapValues Wire.encodeValue,
      s.operators.mapValues Operator.Kind.name⟩, saved)

/-- The symbols that are bound to the name of a kind. -/
def kindsOf (names : Dict String String) : Dict String Operator.Kind :=
  .ofList (names.entries.filterMap fun e =>
    (Operator.Kind.parse e.2).toOption.map fun k => (e.1, k))

/-- The snapshot that was saved last. -/
def load (j : Journal) : Except Fault Snapshot := do
  let ledger ← j.records.entries.mapM fun e => readFront Wire.decodeRecord e.2
  let branches ← j.branches.entries.mapM fun e =>
    (readFront Wire.decodeValue e.2).map fun v => (e.1, v)
  pure ⟨ledger, j.secrets, j.noises, .ofList branches, kindsOf j.operators⟩

def presence (j : Option Journal) : String :=
  if j.isSome then "Some(RedbJournal \x7b .. \x7d)" else "None"

end Journal

end PathLedger
