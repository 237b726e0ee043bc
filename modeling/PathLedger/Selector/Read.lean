import PathLedger.Expr.Evaluate
import PathLedger.Index.Basic
import PathLedger.Selector.Filter
import PathLedger.Selector.Segment

/-!
# Reading through selectors

The three selectors that a read may carry, in the order in which they are tried. Each gives an object
from child keys to values, or nothing when the path does not carry it.

* `Selector.readTransform` — a projection in the last segment.
* `Selector.readSelection` — a multiple choice or a range, with the rest of the path read below every key.
* `Selector.readFilter` — a filter over the children of a collection, on a normalized path.
-/

namespace PathLedger.Selector

/-- The first segment of a path that a reader understands: its position and what was read. -/
def firstSegment? (read : String → Option α) : List String → Option (Nat × α)
  | [] => none
  | s :: rest =>
    match read s with
    | some a => some (0, a)
    | none => (firstSegment? read rest).map fun p => (p.1 + 1, p.2)

/-- The base and the parsed selector of a segment. -/
def selectorOf? (parse : List Char → Option α) (segment : String) : Option (String × α) :=
  match split? segment with
  | none => none
  | some (base, selector) => (parse selector).map fun a => (base, a)

/-- The collection that a selector at a position of a raw path addresses. -/
def collectionAt (p : Path) (position : Nat) (base : String) : Path :=
  (p.take position).normalize.child base

variable {m : Type → Type} [Monad m]

/-- The keys that have a value, with their values, in turn. -/
def gather (value : String → m (Option Value)) : List String → m (List (String × Value))
  | [] => pure []
  | k :: rest => do
    match ← value k with
    | some v => return (k, v) :: (← gather value rest)
    | none => gather value rest

/-- The object of the keys that have a value. -/
def gatherObject (value : String → m (Option Value)) (keys : List String) : m Value := do
  return .object (Entries.ofList (← gather value keys))

/-- The value below a child: the public view of the child itself, or a read of what follows. -/
def readBelow (r : Resolver m) (index : Index) (scope suffix : Path) : m (Option Value) :=
  if suffix.isRoot then pure (index.subtree scope) else r.readPath (scope.join suffix)

/-- A projection of every child, when the last segment and no earlier one carries a projection. -/
def readTransform (r : Resolver m) (index : Index) (p : Path) : m (Option Value) :=
  match firstSegment? (selectorOf? Transform.parse?) p.segments with
  | none => pure none
  | some (position, base, transform) =>
    if position + 1 = p.length then do
      let collection := collectionAt p position base
      let expression := transform.relativeExpression
      return some (← gatherObject
        (fun child => Expr.evaluate r (collection.child child) expression)
        (index.childrenOf collection))
    else pure none

/-- The chosen children, when some segment carries a choice or a range. -/
def readSelection (r : Resolver m) (index : Index) (p : Path) : m (Option Value) :=
  match firstSegment? (selectorOf? keys?) p.segments with
  | none => pure none
  | some (position, base, keys) => do
    let collection := collectionAt p position base
    return some (← gatherObject
      (fun key => readBelow r index (collection.child key) (p.drop (position + 1))) keys)

/-- The children that pass a filter, when some segment but the first is one. -/
def readFilter (r : Resolver m) (index : Index) (p : Path) : m (Option Value) :=
  match firstSegment? (fun s => Filter.parse? s.toList) p.segments with
  | none => pure none
  | some (position, filter) =>
    if position = 0 then pure none
    else do
      let collection := p.take position
      return some (← gatherObject
        (fun child => do
          if ← filter.matchesAt r (collection.child child) then
            readBelow r index (collection.child child) (p.drop (position + 1))
          else pure none)
        (index.childrenOf collection))

end PathLedger.Selector
