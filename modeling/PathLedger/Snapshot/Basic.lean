import PathLedger.Dict
import PathLedger.Ledger.Record

/-!
# Snapshots

Everything from which a store can be made again. The index is made from the records, and derivations
are not kept.
-/

namespace PathLedger

/-- The portable state of a store. -/
structure Snapshot where
  ledger : List Record
  secrets : Dict String String
  noises : Dict String String
  branches : Dict String Value
  operators : Dict String Operator.Kind
deriving DecidableEq

namespace Snapshot

def empty : Snapshot := ⟨[], .empty, .empty, .empty, .empty⟩

instance : Inhabited Snapshot := ⟨empty⟩

/-- The values inside have the fields of their objects in order, each name once. -/
structure Ordered (s : Snapshot) : Prop where
  records : ∀ r ∈ s.ledger, r.expression.Ordered ∧ r.value.Ordered
  branches : ∀ e ∈ s.branches.entries, e.2.Ordered

end Snapshot

end PathLedger
