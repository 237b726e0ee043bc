import PathLedger.Dict
import PathLedger.Path.Basic
import PathLedger.Value.Basic

/-!
# The index

The index is the readable view of a ledger: a flat table from keys to values.

* `Index.childrenOf` — the distinct segments just below a path.
* `Index.subtree` — the value at a path, or else an object nested like the keys below it.
* `Value.insertAt` — a value put into nested objects at a row of names; a value in the way that is no
  object gives way.
-/

namespace PathLedger

/-- The fields of an object value; anything else has none. -/
def Value.fieldsOf : Value → List (String × Value)
  | .object fields => fields
  | _ => []

/-- Nested fields with a value put at a row of names. -/
def Value.insertAt : List String → Value → List (String × Value) → List (String × Value)
  | [], _, fields => fields
  | [name], v, fields => Entries.put name v fields
  | name :: rest, v, fields =>
    let inner := ((Entries.get? name fields).map Value.fieldsOf).getD []
    Entries.put name (.object (insertAt rest v inner)) fields

/-- The value of nested fields at a row of names. -/
def Value.lookupAt : List String → Value → Option Value
  | [], v => some v
  | name :: rest, .object fields =>
    match Entries.get? name fields with
    | some v => lookupAt rest v
    | none => none
  | _ :: _, _ => none

/-- The table from keys to values. -/
abbrev Index := Dict String Value

namespace Index

/-- The entry exactly at a path. -/
def entry (index : Index) (p : Path) : Option Value := index.get? p.key

/-- What every key strictly below a path starts with. -/
def below (p : Path) : List Char := if p.key.isEmpty then [] else (p.key ++ ".").toList

/-- The entries strictly below a path: in key order, from the first key that does not come before what all of them
start with, up to the first that does not start so. Below the root are all entries but its own. -/
def descendants (index : Index) (p : Path) : List (String × Value) :=
  let onward := index.entries.dropWhile fun e => compare e.1 (String.ofList (below p)) == .lt
  (onward.takeWhile fun e => (below p).isPrefixOf e.1.toList).filter fun e => !e.1.isEmpty

/-- The distinct segments just below a path, in order. -/
def childrenOf (index : Index) (p : Path) : List String :=
  let names := (index.descendants p).filterMap fun e => (Path.ofKey e.1).segments[p.length]?
  Entries.keys (Entries.ofList (names.map fun n => (n, ())))

/-- The object nested like the keys below a path. -/
def nested (index : Index) (p : Path) : List (String × Value) :=
  (index.descendants p).foldl
    (fun fields e => Value.insertAt ((Path.ofKey e.1).drop p.length).segments e.2 fields) []

/-- The public view at a path: the value stored exactly there, or else the object of everything below. The
root always shows the object. -/
def subtree (index : Index) (p : Path) : Option Value :=
  match if p.isRoot then none else index.entry p with
  | some v => some v
  | none =>
    if (index.descendants p).isEmpty then none else some (.object (index.nested p))

end Index

end PathLedger
