import PathLedger.Snapshot.Basic
import PathLedger.Store.Call

/-!
# Moving stores

* `Store.snapshot` — the portable state of a store.
* `Store.restore` — a store with its state replaced by a snapshot.
* `Store.replay` — a store cleared and written anew from records, with fresh hashes and times.
-/

namespace PathLedger.Store

/-- The portable state of a store. -/
def snapshot (s : Store) : Snapshot :=
  ⟨s.ledger.records, s.scopes.secrets, s.scopes.noises, s.branches, s.operators⟩

/-- The store with its state replaced by a snapshot. Derivations are not part of one and start empty. -/
def restore (s : Store) (snapshot : Snapshot) : Store :=
  { s with
    ledger := ⟨snapshot.ledger⟩
    scopes := ⟨snapshot.secrets, snapshot.noises⟩
    branches := snapshot.branches
    derivations := .empty
    operators := .overlay snapshot.operators }.reindexed

/-- A store made from a snapshot. -/
def ofSnapshot (snapshot : Snapshot) (clock : Clock) : Store := (empty clock).restore snapshot

/-- The store without records, declarations, branches and derivations. Its operators stay. -/
def cleared (s : Store) : Store :=
  { s with
    ledger := .empty
    scopes := .empty
    branches := .empty
    derivations := .empty }.reindexed

/-- The text that a marker carries in the input of a record, or in what it stored, or else the stored text.
An empty one does not count. -/
def carriedText? (r : Record) (pick : Value → Option String) : Option String :=
  (((pick r.expression).or (pick r.value)).or r.value.asText?).filter fun t => !t.isEmpty

/-- The text of a declaration as recorded. What was recorded in its place counts as the text. -/
def declaredText (r : Record) : String := r.expression.asText?.getD declarationText

/-- What one record does again. Computed values are taken as recorded. -/
def replayRecord (s : Store) (r : Record) : Outcome Unit :=
  let p := Path.ofKey r.path
  match r.operator with
  | some .secret => (s.apply (.declareSecret p (declaredText r))).done
  | some .noise => (s.apply (.declareNoise p (declaredText r))).done
  | some .identity =>
    match carriedText? r Value.asIdentity? with
    | some username => s.declareIdentity r.path username
    | none => ⟨s, some (.ok ())⟩
  | some .pointer =>
    match carriedText? r Value.asPointer? with
    | some target => (s.apply (.point p (Path.canonical target).key)).done
    | none => ⟨s, some (.ok ())⟩
  | some .remove => (s.apply (.remove p)).done
  | some kind => (apply.committed (s.put p r.value (some kind))).done
  | none => (apply.committed (s.put p r.expression none)).done

/-- What records do again, up to the first that is refused. -/
def replayRecords (s : Store) : List Record → Outcome Unit
  | [] => ⟨s, some (.ok ())⟩
  | r :: rest =>
    match s.replayRecord r with
    | ⟨s, some (.ok ())⟩ => s.replayRecords rest
    | o => o

/-- The store cleared and written anew. A refusal leaves the store as far as it got. -/
def replay (s : Store) (records : List Record) : Outcome Unit := s.cleared.replayRecords records

end PathLedger.Store
