import PathLedger.Store.Basic

/-!
# Commits

Where a committed value goes, and what a removal takes along.

* `Store.commitValue` — a value below a hiding scope goes into its branch, any other into the index, sealed
  where an effective secret asks for it.
* `Store.commitMarker` — a record that carries no data.
* `Store.removeSubtree` — everything at or under a path is dropped.
-/

namespace PathLedger

/-- Nested fields without the one at a row of names; nothing, when there is none. -/
def Value.removeAt? : List String → List (String × Value) → Option (List (String × Value))
  | [], _ => none
  | [name], fields =>
    if Entries.has name fields then some (Entries.erase name fields) else none
  | name :: rest, fields =>
    match Entries.get? name fields with
    | some (.object inner) =>
      (removeAt? rest inner).map fun inner => Entries.put name (.object inner) fields
    | _ => none

namespace Store

/-- The field of a branch that a value written at the scope itself goes to. -/
def scopeField : String := "expression"

/-- What is recorded for declarations of secrets and noises, in place of their text. -/
def declarationText : String := "***"

/-- What is recorded for removals. -/
def removalMarker : Value := .text "-"

/-- The fields of the branch of a scope; none when it cannot be opened. -/
def branchFields (s : Store) (scope : Path) : List (String × Value) :=
  ((s.view.openBranch? scope).map Value.fieldsOf).getD []

/-- The store with new fields in the branch of a scope, sealed under the secret of the scope. -/
def sealBranch (s : Store) (scope : Path) (fields : List (String × Value)) : Store :=
  let blob := Blob.encrypt (.object fields) (s.scopes.effectiveSecret scope) scope
  { s with branches := s.branches.insert scope.key blob }

/-- The store with a value put into the branch of a scope; unchanged when the scope has no effective
secret. -/
def writeBranch (s : Store) (scope p : Path) (v : Value) : Store :=
  if (s.scopes.effectiveSecret scope).isEmpty then s
  else
    let names := (p.drop scope.length).segments
    let names := if names.isEmpty then [scopeField] else names
    s.sealBranch scope (Value.insertAt names v (s.branchFields scope))

/-- The store without the value at a path in the branch of a scope; unchanged when there is none. -/
def removeFromBranch (s : Store) (scope p : Path) : Store :=
  if (s.scopes.effectiveSecret scope).isEmpty then s
  else
    match Value.removeAt? (p.drop scope.length).segments (s.branchFields scope) with
    | some fields => s.sealBranch scope fields
    | none => s

/-- Whether values of an operator are never sealed in the index. -/
def staysPlain : Option Operator.Kind → Bool
  | some .derive => true
  | some .query => true
  | _ => false

/-- The form in which a value outside every hiding scope is stored: sealed, unless its path has no effective
secret, it is a marker, or it was computed. -/
def storedForm (s : Store) (p : Path) (v : Value) (operator : Option Operator.Kind) : Value :=
  let secret := s.scopes.effectiveSecret p
  if secret.isEmpty || v.isMarker || staysPlain operator then v else Blob.encrypt v secret p

/-- The store with a value committed at a path, and the new record. -/
def commitValue (s : Store) (p : Path) (v : Value) (operator : Option Operator.Kind) :
    Store × Record :=
  match s.scopes.hidingScope? p with
  | some scope => (s.writeBranch scope p v).commit ⟨p, operator, v, v⟩
  | none => s.commit ⟨p, operator, v, s.storedForm p v operator⟩

/-- The store with a record that carries a marker only, and that record. -/
def commitMarker (s : Store) (p : Path) (kind : Operator.Kind) (marker : Value) : Store × Record :=
  s.commit ⟨p, some kind, marker, marker⟩

/-- What a removal does to one branch: it goes when its scope is removed, and loses the path when its scope
is above it. -/
def pruneBranch (target : Path) (s : Store) (key : String) : Store :=
  if Path.atOrUnder key target.key then { s with branches := s.branches.erase key }
  else
    let scope := Path.ofKey key
    if scope.length < target.length && target.startsWith scope then
      s.removeFromBranch scope target
    else s

/-- The store without everything at or under a path, and the record of the removal. -/
def removeSubtree (s : Store) (target : Path) : Store × Record :=
  let s :=
    { s with
      derivations := s.derivations.clearUnder target
      scopes := s.scopes.purgeUnder target }
  (s.branches.keys.foldl (pruneBranch target) s).commitMarker target .remove removalMarker

end Store

end PathLedger
