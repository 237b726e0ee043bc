import PathLedger.Selector.Read

/-!
# Broadcasting derivations

A derivation whose scope carries `[i]` or a filter is made once for every child of a collection.

* `Selector.iteratorIndices` — the children that `[i]` runs over, numbers first in numeric order.
* `Selector.substituteIn` — a text with `[i]` replaced by a child.
* `Selector.filteredScopes` — the scopes of the children that pass the first filter of a path.
-/

namespace PathLedger.Selector

open Text

/-- The place holder for a child. -/
def iteratorToken : List Char := ['[', 'i', ']']

/-- Whether a text carries the place holder. -/
def carriesIterator (s : String) : Bool := contains iteratorToken s.toList

def containsIterator (p : Path) : Bool := p.segments.any carriesIterator

/-- A text with every place holder replaced. -/
def substitute (new : List Char) (s : String) : String :=
  String.ofList (replaceAll '[' ['i', ']'] new s.toList)

/-- A text with every place holder replaced by a child in brackets. -/
def substituteIn (text child : String) : String := substitute ('[' :: child.toList ++ [']']) text

/-- A path with every place holder replaced by a child in brackets. -/
def substituteInPath (p : Path) (child : String) : Path :=
  ⟨p.segments.map fun s => substituteIn s child⟩

/-- The order of children: numbers by size, then other texts by code points. -/
def childOrder (a b : String) : Ordering :=
  match (Value.text a).finiteNumber?, (Value.text b).finiteNumber? with
  | some x, some y => (x.compare? y).getD .eq
  | some _, none => .lt
  | none, some _ => .gt
  | none, none => compare a b

/-- The children of the collection that the first place holder of a path names. -/
def iteratorIndices (index : Index) (p : Path) : List String :=
  match firstSegment? (fun s => if carriesIterator s then some s else none) p.segments with
  | none => []
  | some (position, segment) =>
    let base := trimmed (substitute [] segment)
    let above := (p.take position).normalize
    let collection := if base.isEmpty then above else above.join (Path.canonical base)
    (index.childrenOf collection).mergeSort fun a b => childOrder a b != .gt

/-- The first filter in the brackets of a path: its position, its base and itself. -/
def firstFilter? (p : Path) : Option (Nat × String × Filter) :=
  firstSegment? (selectorOf? Filter.parse?) p.segments

/-- Whether some raw segment carries a filter in brackets. -/
def containsFilter (p : Path) : Bool := (firstFilter? p).isSome

variable {m : Type → Type} [Monad m]

/-- The scopes of the children that pass the first filter of a path. -/
def filteredScopes (r : Resolver m) (index : Index) (p : Path) : m (List Path) :=
  match firstFilter? p with
  | none => pure []
  | some (position, base, filter) => do
    let collection := collectionAt p position base
    let scopes := (index.childrenOf collection).map collection.child
    let passing ← scopes.filterM fun scope => filter.matchesAt r scope
    return passing.map (·.join (p.drop (position + 1)))

end PathLedger.Selector
