import PathLedger.Ledger.Json
import PathLedger.Snapshot.Basic

/-!
# Snapshots as documents

Reading never fails: a field that is missing or malformed counts as empty, and a malformed record or
entry is left out on its own.

* `Snapshot.toJson` — the document of a snapshot.
* `Snapshot.ofJson` — the snapshot of any document.
-/

namespace PathLedger.Snapshot

/-- The object of a table. -/
def tableJson (f : α → Json) (d : Dict String α) : Json := .obj (d.entries.map fun e => (e.1, f e.2))

def toJson (s : Snapshot) : Json :=
  .obj [("ledger", .arr (s.ledger.map Record.tagged)), ("secrets", tableJson .str s.secrets),
    ("noises", tableJson .str s.noises), ("encrypted_branches", tableJson Value.tagged s.branches),
    ("operators", tableJson (fun k => .str k.name) s.operators)]

/-- The kind that an operator entry names, directly or in a field of its own. Second names of kinds count. -/
def operatorOf? : Json → Option Operator.Kind
  | .str s => (Operator.Kind.parse s).toOption
  | .obj fields =>
    (((Json.obj fields).field? "kind").bind Json.asString?).bind fun s => (Operator.Kind.parse s).toOption
  | _ => none

/-- The well-formed records of a row. -/
def recordsOf : Option Json → List Record
  | some (.arr items) => items.filterMap Record.ofTagged?
  | _ => []

/-- The well-formed entries of an object. -/
def tableOf (read : Json → Option α) : Option Json → Dict String α
  | some (.obj fields) => .ofList (fields.filterMap fun e => (read e.2).map fun a => (e.1, a))
  | _ => .empty

def ofJson (j : Json) : Snapshot :=
  ⟨recordsOf (j.field? "ledger"), tableOf Json.asString? (j.field? "secrets"),
    tableOf Json.asString? (j.field? "noises"), tableOf Value.ofTagged? (j.field? "encrypted_branches"),
    tableOf operatorOf? (j.field? "operators")⟩

end PathLedger.Snapshot
