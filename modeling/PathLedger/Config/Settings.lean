import PathLedger.Config.Toml
import PathLedger.Fault

/-!
# Settings

Where a store is kept and how results are shown. A command-line flag wins over the environment, which
names the database only, and that over the settings file; last come the defaults.

* `FileSettings.parse` — the settings file.
* `Settings.resolve` — the settings in force.
-/

namespace PathLedger

/-- How a store is kept between commands. -/
inductive Backend where
  /-- A journal to which new records are added. -/
  | journal
  /-- One snapshot file, rewritten on every save. -/
  | file
deriving DecidableEq, Repr, Inhabited

namespace Backend

def name : Backend → String
  | .journal => "redb"
  | .file => "file"

/-- A text with the capital letters A to Z made small. -/
def lowered (s : String) : String := String.ofList (s.toList.map Char.toLower)

/-- The backend that a text names, blanks around it and the size of letters ignored. -/
def parse (s : String) : Except Fault Backend :=
  let t := lowered (Text.trimmed s)
  if t = Backend.journal.name then .ok .journal
  else if t = Backend.file.name then .ok .file
  else .error (.io ("Unknown backend '" ++ t ++ "' (expected 'redb' or 'file')"))

end Backend

/-- What a settings file says. -/
structure FileSettings where
  database : Option String
  backend : Option String
  json : Option Bool
  inspectLast : Option Nat
deriving DecidableEq, Repr

namespace FileSettings

def empty : FileSettings := ⟨none, none, none, none⟩

/-- The settings with one more key. Keys without a meaning and values of another type are refused. -/
def add (f : FileSettings) (e : String × Toml.Scalar) : Option FileSettings :=
  match e with
  | ("database", .text s) => some { f with database := some s }
  | ("backend", .text s) => some { f with backend := some s }
  | ("json", .truth b) => some { f with json := some b }
  | ("inspect_last", .integer n) =>
    if 0 ≤ n && n < Int.pow 2 64 then some { f with inspectLast := some n.toNat } else none
  | _ => none

/-- The settings that a text gives. -/
def parse (text : String) : Except Fault FileSettings :=
  match (Toml.parse? text.toList).bind fun l => l.foldlM add empty with
  | some f => .ok f
  | none => .error (.deserialization "Invalid configuration")

end FileSettings

/-- What the command line says; a flag that is not given says nothing. -/
structure Overrides where
  database : Option String
  backend : Option String
  json : Bool
deriving DecidableEq, Repr, Inhabited

/-- The settings in force. -/
structure Settings where
  database : String
  backend : Backend
  json : Bool
  inspectLast : Nat
deriving DecidableEq, Repr

namespace Settings

def defaultDatabase : String := "memex.db"

def defaultFile : String := "memex.toml"

/-- The variable of the environment that names the database. -/
def environmentVariable : String := "MEMEX_DB"

/-- The number of records that an inspection shows when nothing else is said. -/
def defaultLast : Nat := 20

/-- The settings in force. A blank variable of the environment does not count. -/
def resolve (flags : Overrides) (file : FileSettings) (environment : Option String) :
    Except Fault Settings :=
  let environment := environment.filter fun s => !(Text.trimmed s).isEmpty
  let database := ((flags.database.or environment).or file.database).getD defaultDatabase
  let backend :=
    match flags.backend.or file.backend with
    | some raw => Backend.parse raw
    | none => .ok .journal
  backend.map fun backend =>
    ⟨database, backend, flags.json || file.json.getD false, file.inspectLast.getD defaultLast⟩

end Settings

end PathLedger
