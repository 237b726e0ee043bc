import PathLedger.Fault
import PathLedger.Ledger.Record
import PathLedger.Path.Basic

/-!
# The ledger

An append-only row of records in which each names the hash of the one before.

* `Ledger.append` — a draft sealed into a record and put at the end.
* `Ledger.verify` — every link and every hash checked, from the first record on.
* `Ledger.tail` — the last records.
-/

namespace PathLedger

/-- A record about to be committed. -/
structure Draft where
  path : Path
  operator : Option Operator.Kind
  expression : Value
  value : Value
deriving DecidableEq, Repr

/-- A row of records. -/
structure Ledger where
  records : List Record
deriving DecidableEq, Repr

namespace Ledger

def empty : Ledger := ⟨[]⟩

instance : Inhabited Ledger := ⟨empty⟩

def length (l : Ledger) : Nat := l.records.length

/-- The hash of the last record; empty when there is none. -/
def lastHash (l : Ledger) : String := (l.records.getLast?.map Record.hash).getD ""

/-- The record that a draft becomes behind a given hash. -/
def sealDraft (prevHash : String) (d : Draft) (effectiveSecret : String) (timestamp : UInt64) : Record :=
  let r : Record :=
    ⟨d.path.key, d.operator, d.expression, d.value, effectiveSecret, "", prevHash, timestamp⟩
  { r with hash := r.contentHash }

/-- The ledger with a draft sealed and put at its end, and the new record. -/
def append (l : Ledger) (d : Draft) (effectiveSecret : String) (timestamp : UInt64) :
    Ledger × Record :=
  let r := sealDraft l.lastHash d effectiveSecret timestamp
  (⟨l.records ++ [r]⟩, r)

/-- The first fault in a row of records, counted from `position`, behind a record with hash `prev`. -/
def check (prev : String) (position : Nat) : List Record → Except Fault Unit
  | [] => .ok ()
  | r :: rest =>
    if r.prevHash != prev then .error (.chainBroken position)
    else if r.contentHash != r.hash then .error (.hashMismatch position)
    else check r.hash (position + 1) rest

/-- Every link and every hash checked. -/
def verify (l : Ledger) : Except Fault Unit := check "" 0 l.records

/-- The last `n` records; all of them when `n` is zero. -/
def tail (l : Ledger) (n : Nat) : List Record :=
  if n = 0 then l.records else l.records.drop (l.length - n)

end Ledger

end PathLedger
