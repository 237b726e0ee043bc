import PathLedger.Command.Basic
import PathLedger.Command.Database
import PathLedger.Command.Input
import PathLedger.Store.Inspect

/-!
# Running commands

Every command opens the database, loads the store, does one thing and, when that changes the store,
saves it. A refused command saves nothing, and neither does one that starts a read without end: it has no answer.

* `Command.fileSettings` — the settings file.
* `Command.run` — one command.
-/

namespace PathLedger.Command

variable {m : Type → Type} [Monad m]

/-! ### Renderings -/

def recordJson (r : Record) : Json :=
  .obj [("path", .str r.path), ("operator", r.operatorJson), ("expression", r.expression.toJson),
    ("value", r.value.toJson), ("hash", .str r.hash), ("prev_hash", .str r.prevHash),
    ("timestamp", .int r.timestamp.toNat)]

/-- The characters in front of a text that take exactly `n` bytes. -/
def front? : Nat → List Char → Option (List Char)
  | 0, _ => some []
  | _ + 1, [] => none
  | n + 1, c :: r =>
    if c.utf8Size ≤ n + 1 then (front? (n + 1 - c.utf8Size) r).map (c :: ·) else none

/-- The first twelve bytes of a hash; all of it when no character ends there. -/
def shortHash (hash : String) : String := ((front? 12 hash.toList).map String.ofList).getD hash

/-- A value that may be missing, as text. -/
def foundText (v : Option Value) : String := (v.map Value.display).getD "(not found)"

/-- The answer to a write. -/
def effectOutput : Store.Effect → Output
  | .committed r =>
    ⟨.obj [("committed", recordJson r)],
      "Committed '" ++ r.path ++ "' (" ++ shortHash r.hash ++ ")"⟩
  | .computed v => ⟨.obj [("computed", v.toJson)], v.display⟩
  | .nothing => ⟨.obj [("committed", .null)], "Nothing committed"⟩

/-- The answer to a declaration. -/
def declaredOutput (kind path : String) (s : Store) : Output :=
  ⟨.obj [("declared", .str kind), ("path", .str path), ("hash", .str s.ledger.lastHash)],
    "Declared " ++ kind ++ " at '" ++ path ++ "'"⟩

def inputJson (i : ExplainedInput) : Json :=
  .obj [("label", .str i.label), ("path", .str i.path), ("value", Json.ofOption Value.toJson i.value),
    ("origin", .str (if i.hidden then "stealth" else "public")), ("masked", .bool i.hidden)]

def explanationJson (e : Explanation) : Json :=
  let derivation := fun (d : ExplainedDerivation) =>
    Json.obj [("expression", .str d.expression), ("inputs", .arr (d.inputs.map inputJson))]
  .obj [("path", .str e.path), ("value", Json.ofOption Value.toJson e.value),
    ("derivation", Json.ofOption derivation e.derivation),
    ("meta", .obj [("depends_on", Json.strings e.dependsOn),
      ("last_computed_at", Json.ofOption (fun d => .int d.lastComputedAt.toNat) e.derivation)])]

def explanationText (e : Explanation) : String :=
  let input := fun (i : ExplainedInput) =>
    "\n    " ++ i.label ++ " -> " ++ i.path ++ " = " ++ foundText i.value
  e.path ++ " = " ++ foundText e.value ++
    match e.derivation with
    | some d => "\n  derived from: " ++ d.expression ++ String.join (d.inputs.map input)
    | none => "\n  (no live derivation)"

def inspectionJson (i : Inspection) : Json :=
  .obj [("ledger", .arr (i.ledger.map recordJson)),
    ("index", .obj (i.index.entries.map fun e => (e.1, e.2.toJson))),
    ("encrypted_scopes", Json.strings i.encryptedScopes),
    ("secret_scopes", Json.strings i.secretScopes), ("noise_scopes", Json.strings i.noiseScopes)]

/-- A text filled up with spaces to a width. -/
def padded (width : Nat) (s : String) : String :=
  s ++ String.ofList (List.replicate (width - s.length) ' ')

/-- One line of an inspected ledger. -/
def ledgerLine (r : Record) : String :=
  let operator := (r.operator.map Operator.Kind.name).getD "set"
  let path := if r.path.isEmpty then "(root)" else r.path
  "\n  " ++ shortHash r.hash ++ " " ++ padded 8 operator ++ " " ++ path ++ " = " ++ r.value.display

def inspectionText (settings : Settings) (count : Nat) (i : Inspection) : String :=
  let list := fun (l : List String) => ", ".intercalate l
  "Memex Store\n===========\nDatabase: " ++ Place.quoted settings.database ++ "\nBackend:  " ++
    settings.backend.name ++ "\nThoughts: " ++ toString count ++ "\nIndexed:  " ++
    toString i.index.size ++ "\nSecret scopes: " ++ list i.secretScopes ++ "\nNoise scopes:  " ++
    list i.noiseScopes ++ "\n\nLedger tail:" ++ String.join (i.ledger.map ledgerLine)

/-! ### Stores -/

/-- A result that needs nothing from files. -/
def pureResult (r : Except Fault α) : ExceptT Fault m α := ExceptT.mk (pure r)

/-- The store that is kept, for reading. -/
def loadStore (files : Files m) (settings : Settings) (clock : Clock) : ExceptT Fault m Store := do
  (← Database.openAt files settings).load files clock

/-- A call on the kept store, and the answer to it. The store is saved unless the call is refused or never returns. -/
def withStore (files : Files m) (settings : Settings) (clock : Clock) (call : Store → Store.Outcome α)
    (answer : Store → α → Output) : ExceptT Fault m (Option Output) := do
  let db ← Database.openAt files settings
  let outcome := call (← db.load files clock)
  match outcome.result with
  | none => pure none
  | some result =>
    let a ← pureResult result
    db.save files outcome.store
    return some (answer outcome.store a)

/-- The answer to a write on the kept store. -/
def writing (files : Files m) (settings : Settings) (clock : Clock)
    (call : Store → Store.Outcome Store.Effect) : ExceptT Fault m (Option Output) :=
  withStore files settings clock call fun _ => effectOutput

/-- The answer to a declaration on the kept store. -/
def declaring (files : Files m) (settings : Settings) (clock : Clock) (kind path : String)
    (call : Store → Store.Outcome Unit) : ExceptT Fault m (Option Output) :=
  withStore files settings clock call fun s _ => declaredOutput kind path s

/-! ### Commands -/

def makeNew (files : Files m) (settings : Settings) (clock : Clock) (force : Bool) :
    ExceptT Fault m Output := do
  if (← files.standing settings.database) != .nothing then
    if !force then throw (.io "Database already exists. Use --force to overwrite.")
    Database.headed "Remove db: " (files.delete settings.database)
  let db ← Database.openAt files settings
  db.save files (.empty clock)
  return ⟨.obj [("database", .str settings.database), ("backend", .str settings.backend.name)],
    "Initialized new " ++ settings.backend.name ++ " database at " ++
      Place.quoted settings.database⟩

/-- The full place of a file to be written, whose folder must exist. -/
def outputPlace (files : Files m) (place : String) : ExceptT Fault m String := do
  let folder := Place.folder place
  let full ← Database.headed ("Invalid output directory '" ++ folder ++ "': ") (files.fullPlace folder)
  if (← files.standing folder) != .folder then
    throw (.io ("Output directory '" ++ folder ++ "' is not a valid directory"))
  match Place.fileName? place with
  | some name => pure (full ++ "/" ++ name)
  | none => throw (.io "Output path has no filename")

/-- The bytes of a snapshot in the named format. -/
def exportBytes (snapshot : Snapshot) (format : String) : Except Fault Bytes :=
  if format = "binary" then .ok snapshot.toBytes
  else if format = "json" then .ok (Bytes.ofText snapshot.toJson.pretty)
  else
    .error (.serialization ("Unknown export format '" ++ format ++
      "' (expected 'binary' or 'json')"))

/-- A snapshot written to a file. -/
def exportSnapshot (files : Files m) (settings : Settings) (clock : Clock) (place format : String) :
    ExceptT Fault m Output := do
  let full ← outputPlace files place
  let snapshot := (← loadStore files settings clock).snapshot
  let content ← pureResult (exportBytes snapshot format)
  Database.headed "Write file: " (files.write full content)
  let count := snapshot.ledger.length
  return ⟨.obj [("output", .str full), ("format", .str format), ("bytes", .int content.length),
      ("thoughts", .int count)],
    "Exported " ++ toString count ++ " thoughts to " ++ Place.quoted full ++ " (" ++
      toString content.length ++ " bytes)"⟩

/-- The kept store replaced by a snapshot file. -/
def importSnapshot (files : Files m) (settings : Settings) (clock : Clock) (place : String) :
    ExceptT Fault m (Option Output) := do
  let snapshot ← Database.readSnapshot files place
  withStore files settings clock (fun s => ⟨s.restore snapshot, some (.ok ())⟩) fun s () =>
    let count := s.ledger.length
    ⟨.obj [("imported", .int count)], "Imported " ++ toString count ++ " thoughts"⟩

/-- The kept store written anew from the records of a snapshot file. -/
def replaySnapshot (files : Files m) (settings : Settings) (clock : Clock) (place : String) :
    ExceptT Fault m (Option Output) := do
  let snapshot ← Database.readSnapshot files place
  withStore files settings clock (fun s => s.replay snapshot.ledger) fun s () =>
    let records := snapshot.ledger.length
    let count := s.ledger.length
    ⟨.obj [("replayed", .int records), ("thoughts", .int count)],
      "Replayed " ++ toString records ++ " records into " ++ toString count ++ " thoughts"⟩

/-- One command; no answer when it starts a read or an evaluation that never ends. -/
def run (files : Files m) (settings : Settings) (clock : Clock) :
    Command → ExceptT Fault m (Option Output)
  | .init force => some <$> makeNew files settings clock force
  | .write path raw symbol =>
    writing files settings clock fun s => s.write path (readValue raw) symbol
  | .read path => do
    return ((← loadStore files settings clock).read path).map fun found =>
      ⟨.obj [("path", .str path), ("value", Json.ofOption Value.toJson found)], foundText found⟩
  | .remove path =>
    withStore files settings clock (fun s => s.remove path) fun _ r =>
      ⟨.obj [("removed", .str r.path), ("hash", .str r.hash)], "Removed '" ++ r.path ++ "'"⟩
  | .secret scope text =>
    declaring files settings clock "secret" scope fun s => s.declareSecret scope text
  | .noise scope text =>
    declaring files settings clock "noise" scope fun s => s.declareNoise scope text
  | .pointer path target =>
    declaring files settings clock "pointer" path fun s => s.definePointer path target
  | .identity path username =>
    declaring files settings clock "identity" path fun s => s.declareIdentity path username
  | .operator symbol kind =>
    withStore files settings clock (fun s => s.defineOperator symbol kind) fun _ () =>
      ⟨.obj [("operator", .str symbol), ("kind", .str kind)], "Operator '" ++ symbol ++ "' bound to " ++ kind⟩
  | .derive path expression => writing files settings clock fun s => s.deriveAt path expression
  | .collect paths (some scope) =>
    writing files settings clock fun s => s.collectAt scope paths
  | .collect paths none => do
    return ((← loadStore files settings clock).collect paths).map fun v => ⟨.obj [("collected", v.toJson)], v.display⟩
  | .explain path => do
    return ((← loadStore files settings clock).explain path).map fun e => ⟨explanationJson e, explanationText e⟩
  | .inspect last => do
    let s ← loadStore files settings clock
    let i := s.inspect (last.getD settings.inspectLast)
    return some ⟨inspectionJson i, inspectionText settings s.ledger.length i⟩
  | .verify => do
    let s ← loadStore files settings clock
    pureResult s.verify
    let count := s.ledger.length
    return some ⟨.obj [("valid", .bool true), ("thoughts", .int count)],
      "Ledger intact: " ++ toString count ++ " thoughts verified"⟩
  | .exportTo place format => some <$> exportSnapshot files settings clock place format
  | .importFrom place => importSnapshot files settings clock place
  | .replayFrom place => replaySnapshot files settings clock place

/-- What the settings file says: the named one, which must exist, or else the one in the working folder. -/
def fileSettings (files : Files m) (named : Option String) : ExceptT Fault m FileSettings := do
  let place := named.getD Settings.defaultFile
  if (← files.standing place) == .nothing then
    if named.isSome then throw (.io ("Configuration file '" ++ place ++ "' not found"))
    return .empty
  let content ← Database.headed "Read config: " (files.read place)
  match Bytes.toText? content with
  | some text => pureResult (FileSettings.parse text)
  | none => throw (.io "Read config: stream did not contain valid UTF-8")

/-- The settings in force for a command line. -/
def settingsFor (files : Files m) (overrides : Overrides) (named environment : Option String) :
    ExceptT Fault m Settings := do
  pureResult (Settings.resolve overrides (← fileSettings files named) environment)

end PathLedger.Command
