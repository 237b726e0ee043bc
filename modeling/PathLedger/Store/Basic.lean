import PathLedger.Clock
import PathLedger.Derivation.Graph
import PathLedger.Index.Fold
import PathLedger.Ledger.Basic
import PathLedger.Operator.Registry
import PathLedger.Store.View

/-!
# Stores

A store is a ledger with everything that is derived from it or kept beside it.

* `Store.view` — what reads see.
* `Store.commit` — one record put at the end of the ledger, and the index made anew.
* `Store.Outcome` — what a call leaves behind: the store, also when the call is refused or never returns.
-/

namespace PathLedger

/-- A ledger, the declarations in force, the sealed branches, the index, the live derivations, the operator
symbols and the clock. -/
structure Store where
  ledger : Ledger
  scopes : Scopes
  branches : Dict String Value
  index : Index
  derivations : Derivation.Graph
  operators : Operator.Registry
  clock : Clock

namespace Store

def empty (clock : Clock) : Store :=
  ⟨.empty, .empty, .empty, .empty, .empty, .initial, clock⟩

/-- What reads see of a store. -/
def view (s : Store) : View := ⟨s.index, s.scopes, s.branches⟩

/-- What evaluation sees of a store. -/
def resolver (s : Store) : Resolver Option := s.view.resolver

/-- The store with its index made anew from its records. -/
def reindexed (s : Store) : Store := { s with index := Index.materialize s.ledger.records s.scopes }

/-- The store with a draft committed at the time of the clock, and the new record. -/
def commit (s : Store) (d : Draft) : Store × Record :=
  let (ledger, r) := s.ledger.append d (s.scopes.effectiveSecret d.path) s.clock.now
  ({ s with ledger := ledger, clock := s.clock.advance }.reindexed, r)

/-- What a call leaves behind. -/
structure Outcome (α : Type) where
  /-- The store when the call returns, or as it stands where the call goes on without end. -/
  store : Store
  /-- What the call returns; none when it never does. -/
  result : Option (Except Fault α)

/-- What a write did. -/
inductive Effect where
  /-- The last record that was added. -/
  | committed (r : Record)
  /-- A value that was computed without adding a record. -/
  | computed (v : Value)
  /-- No record was added. -/
  | nothing
deriving DecidableEq, Repr

end Store

end PathLedger
