import PathLedger.Index.Basic
import PathLedger.Ledger.Record
import PathLedger.Scope.Basic

/-!
# From ledger to index

The index is the fold of the records in the order of their time, hash and position.

* `Index.inOrder` — the records in that order.
* `Index.absorb` — one record: a removal deletes its subtree, a secret or noise carries no data, a hidden
  path is left out, and everything else sets its key.
* `Index.materialize` — the fold.
-/

namespace PathLedger.Index

/-- Whether a record comes before another: by time, then by hash. Equal ones keep their position. -/
def comesBefore (a b : Record) : Bool :=
  a.timestamp < b.timestamp || (a.timestamp = b.timestamp && compare a.hash b.hash != .gt)

/-- The records in the order in which they count. -/
def inOrder (records : List Record) : List Record := records.mergeSort comesBefore

/-- The index without a subtree; the empty key removes everything. -/
def removeUnder (index : Index) (key : String) : Index :=
  if key.isEmpty then .empty else index.filter fun k _ => !Path.atOrUnder k key

/-- One record taken into the index. -/
def absorb (scopes : Scopes) (index : Index) (r : Record) : Index :=
  match r.operator with
  | some .remove => index.removeUnder r.path
  | some .secret => index
  | some .noise => index
  | _ =>
    if (scopes.hidingScope? (Path.ofKey r.path)).isSome then index else index.insert r.path r.value

/-- The index of a row of records under the current declarations. -/
def materialize (records : List Record) (scopes : Scopes) : Index :=
  (inOrder records).foldl (absorb scopes) .empty

end PathLedger.Index
