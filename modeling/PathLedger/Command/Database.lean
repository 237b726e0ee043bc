import PathLedger.Config.Settings
import PathLedger.Fault
import PathLedger.Files.Place
import PathLedger.Files.Basic
import PathLedger.Journal.Binary
import PathLedger.Json.Parser
import PathLedger.Snapshot.Json
import PathLedger.Store.Portable

/-!
# Databases on files

A database keeps one store between commands, as a journal or as a snapshot file.

* `Database.open?` — a journal is made when there is none.
* `Database.load`, `Database.save` — the store that is kept.
* `Database.readSnapshot` — a snapshot file in either of its two forms.
-/

namespace PathLedger

/-- Where a store is kept, and the journal when it is kept in one. -/
structure Database where
  place : String
  journal : Option Journal

namespace Database

variable {m : Type → Type} [Monad m]

/-- A call that may be refused with a fault of files, under a heading. -/
def headed (heading : String) (call : m (Except FileFault α)) : ExceptT Fault m α :=
  ExceptT.mk do
    return (← call).mapError fun f => Fault.io (heading ++ f.message)

/-- The journal at a place; a new one is written when there is none. -/
def openJournal (files : Files m) (place : String) : ExceptT Fault m Journal := do
  match ← files.read place with
  | .ok content =>
    match Journal.ofBytes content with
    | .ok j => pure j
    | .error d => throw (.io d.message)
  | .error .missing =>
    headed "I/O error: " (files.write place Journal.empty.toBytes)
    pure .empty
  | .error f => throw (.io ("I/O error: " ++ f.message))

/-- The database that settings describe. -/
def openAt (files : Files m) (s : Settings) : ExceptT Fault m Database :=
  match s.backend with
  | .journal => do pure ⟨s.database, some (← openJournal files s.database)⟩
  | .file => pure ⟨s.database, none⟩

/-- Refuse a file that is too large. -/
def checkSize (content : Bytes) : Except Fault Unit :=
  if Snapshot.maxSize < content.length then
    .error (.deserialization ("File size " ++ toString content.length ++
      " bytes exceeds maximum allowed " ++ toString Snapshot.maxSize ++ " bytes"))
  else .ok ()

/-- The snapshot that is kept. -/
def loadSnapshot (files : Files m) (db : Database) : ExceptT Fault m Snapshot :=
  match db.journal with
  | some j => ExceptT.mk (pure j.load)
  | none => do
    match ← files.standing db.place with
    | .nothing => pure .empty
    | _ =>
      let content ← headed "Read db: " (files.read db.place)
      ExceptT.mk (pure (checkSize content))
      ExceptT.mk (pure (Snapshot.ofBytes content))

/-- The store that is kept, on the given clock. -/
def load (files : Files m) (db : Database) (clock : Clock) : ExceptT Fault m Store := do
  pure (Store.ofSnapshot (← db.loadSnapshot files) clock)

/-- Keep a store. -/
def save (files : Files m) (db : Database) (s : Store) : ExceptT Fault m Unit :=
  match db.journal with
  | some j => do
    let (j, _) ← ExceptT.mk (pure (j.save s.snapshot))
    headed "I/O error: " (files.write db.place j.toBytes)
  | none => headed "Write db: " (files.write db.place s.snapshot.toBytes)

/-- The snapshot in a file: in binary form when it starts as one, and otherwise a document. -/
def snapshotOf (content : Bytes) : Except Fault Snapshot :=
  if Snapshot.Header.magicBytes.isPrefixOf content then Snapshot.ofBytes content
  else
    match Json.parse content with
    | .ok j => .ok (Snapshot.ofJson j)
    | .error e =>
      .error (.deserialization ("Neither a binary nor a JSON snapshot: " ++ e.message content))

/-- The snapshot in the file at a place. -/
def readSnapshot (files : Files m) (place : String) : ExceptT Fault m Snapshot := do
  let full ← headed ("Invalid file path '" ++ place ++ "': ") (files.fullPlace place)
  if (← files.standing full) != .file then
    throw (.io ("Path '" ++ place ++ "' is not a regular file"))
  let content ← headed "Read file: " (files.read full)
  ExceptT.mk (pure (checkSize content))
  ExceptT.mk (pure (snapshotOf content))

end Database

end PathLedger
